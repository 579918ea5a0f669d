import CellStore.SnapshotCache

/-! # What a cache was offered

A cache is offered snapshots one after the other: a publication offers one, a refresh offers
what the provider answers, if that is a snapshot, and a background run goes on refreshing
until it is told to stop. Of all the snapshots that it was offered a cache holds one with the
largest bound, the last of these. So bounds never fall, and a snapshot is installed exactly if
no earlier one had a larger bound.
-/
namespace CellStore.SnapshotCache

/-- The last of the snapshots with the largest bound. -/
def Leads (offers : List Snapshot) (s : Snapshot) : Prop :=
  ∃ earlier later, offers = earlier ++ s :: later ∧
    (∀ x ∈ earlier, x.upperBound ≤ s.upperBound) ∧ ∀ x ∈ later, x.upperBound < s.upperBound

namespace Leads

variable {offers : List Snapshot} {s t x : Snapshot}

theorem mem (h : Leads offers s) : s ∈ offers := by
  obtain ⟨earlier, later, rfl, -⟩ := h
  simp

theorem le (h : Leads offers s) (hx : x ∈ offers) : x.upperBound ≤ s.upperBound := by
  obtain ⟨earlier, later, rfl, hearlier, hlater⟩ := h
  rcases List.mem_append.1 hx with hx | hx
  · exact hearlier x hx
  · rcases List.mem_cons.1 hx with rfl | hx
    · exact UInt64.le_refl _
    · exact UInt64.le_of_lt (hlater x hx)

theorem append_of_lt (h : Leads offers s) (hlt : x.upperBound < s.upperBound) :
    Leads (offers ++ [x]) s := by
  obtain ⟨earlier, later, rfl, hearlier, hlater⟩ := h
  refine ⟨earlier, later ++ [x], by simp, hearlier, fun y hy => ?_⟩
  rcases List.mem_append.1 hy with hy | hy
  · exact hlater y hy
  · rwa [List.mem_singleton.1 hy]

/-- A later snapshot takes the lead with an equal bound already. -/
theorem append_of_le (h : Leads offers s) (hle : s.upperBound ≤ x.upperBound) :
    Leads (offers ++ [x]) x :=
  ⟨offers, [], rfl, fun _ hy => UInt64.le_trans (h.le hy) hle, by simp⟩

/-- Only one snapshot leads. -/
theorem unique (hs : Leads offers s) (ht : Leads offers t) : s = t := by
  have hst : s.upperBound = t.upperBound := UInt64.le_antisymm (ht.le hs.mem) (hs.le ht.mem)
  obtain ⟨earlier, later, rfl, -, hlater⟩ := hs
  obtain ⟨earlier', later', hsplit, -, hlater'⟩ := ht
  -- Whichever of the two stands behind the other would have a smaller bound.
  rcases List.append_eq_append_iff.1 hsplit with ⟨between, -, hrest⟩ | ⟨between, -, hrest⟩
  · cases between with
    | nil => exact (List.cons.inj hrest).1
    | cons y ys =>
      have hmem : t ∈ later := by simp [(List.cons.inj hrest).2]
      exact absurd (hlater t hmem) (by simp [hst])
  · cases between with
    | nil => exact (List.cons.inj hrest).1.symm
    | cons y ys =>
      have hmem : s ∈ later' := by simp [(List.cons.inj hrest).2]
      exact absurd (hlater' s hmem) (by simp [hst])

end Leads

/-! ## What is done to a cache -/

/-- The snapshots that a provider's answer offers. -/
def offers : Response → List Snapshot
  | .ok (some s) => [s]
  | _ => []

/-- The rounds in which a background run asks its provider: all of them up to the one in which it
is told to stop. -/
def asked (rounds : List Round) : List Round :=
  rounds.takeWhile (!·.stops) ++ (rounds.dropWhile (!·.stops)).take 1

inductive Call where
  | publish (s : Snapshot)
  | refresh (r : Response)
  /-- A background run, which may have been told to stop before it starts. -/
  | background (stopped : Bool) (rounds : List Round)

/-- The snapshots that a call offers. -/
def Call.offers : Call → List Snapshot
  | publish s => [s]
  | refresh r => SnapshotCache.offers r
  | background stopped rounds =>
    if stopped then [] else (asked rounds).flatMap fun r => SnapshotCache.offers r.response

/-- The cache after a call. -/
def call (c : SnapshotCache) : Call → SnapshotCache
  | .publish s => (c.publish s).2.1
  | .refresh r => (c.refresh r).2.1
  | .background stopped rounds => (c.background stopped rounds).2.2.1

/-- A new cache after some calls. -/
def after (calls : List Call) : SnapshotCache := calls.foldl call {}

/-- All that calls offer, in their order. -/
def offered (calls : List Call) : List Snapshot := calls.flatMap Call.offers

variable {c : SnapshotCache} {seen : List Snapshot} {s : Snapshot}

/-- The cache after some snapshots were published. -/
def publishAll (c : SnapshotCache) (snapshots : List Snapshot) : SnapshotCache :=
  snapshots.foldl (fun c s => (c.publish s).2.1) c

/-- A refresh publishes what it is offered. -/
theorem refresh_cache (c : SnapshotCache) (r : Response) :
    (c.refresh r).2.1 = c.publishAll (offers r) := by
  rcases r with e | ⟨⟩ | s <;> rfl

/-- A background run asks its provider until it is told to stop, and what it is offered it
publishes. The other rounds are left. -/
theorem background_asks (c : SnapshotCache) (rounds : List Round) :
    (c.background false rounds).2.2.1 =
        ((asked rounds).map fun r => Call.refresh r.response).foldl call c ∧
      rounds = asked rounds ++ (c.background false rounds).1 := by
  induction rounds generalizing c with
  | nil => exact ⟨rfl, rfl⟩
  | cons r rounds ih =>
    obtain ⟨response, stops⟩ := r
    cases stops with
    | true => simp [background, asked, call]
    | false =>
      obtain ⟨hcache, hrest⟩ := ih (c.refresh response).2.1
      have hasked : asked (⟨response, false⟩ :: rounds) = ⟨response, false⟩ :: asked rounds := by
        simp [asked]
      simp only [background, hasked, List.map_cons, List.foldl_cons, call, List.cons_append]
      exact ⟨hcache, congrArg _ hrest⟩

/-- Whatever the call, it publishes what it offers. -/
theorem call_eq_publishAll (c : SnapshotCache) (k : Call) : c.call k = c.publishAll k.offers := by
  cases k with
  | publish s => rfl
  | refresh r => exact c.refresh_cache r
  | background stopped rounds =>
    cases stopped with
    | true => simp [call, background, Call.offers, publishAll]
    | false =>
      have hrefresh : (fun (c : SnapshotCache) (r : Round) => c.call (.refresh r.response)) =
          fun c r => c.publishAll (offers r.response) := by
        funext c r
        exact c.refresh_cache r.response
      rw [call, (c.background_asks rounds).1, List.foldl_map, hrefresh]
      simp only [Call.offers, publishAll, List.foldl_flatMap, Bool.false_eq_true, if_false]

theorem after_eq_publishAll (calls : List Call) : after calls = publishAll {} (offered calls) := by
  have hcall : call = fun c k => c.publishAll k.offers := by
    funext c k
    exact c.call_eq_publishAll k
  rw [after, hcall, offered, publishAll, List.foldl_flatMap]
  rfl

/-! ## What a cache holds -/

/-- The cache holds what leads among the snapshots that it has seen. -/
def Holds (c : SnapshotCache) (seen : List Snapshot) : Prop :=
  match c.latest with
  | none => seen = []
  | some s => Leads seen s

/-- A snapshot is installed if no earlier one has a larger bound, and the cache goes on holding
what leads. -/
theorem Holds.publish (h : c.Holds seen) (s : Snapshot) :
    ((c.publish s).1 = true ↔ ∀ x ∈ seen, x.upperBound ≤ s.upperBound) ∧
      (c.publish s).2.1.Holds (seen ++ [s]) := by
  obtain ⟨latest⟩ := c
  cases latest with
  | none =>
    have hseen : seen = [] := h
    subst hseen
    exact ⟨by simp [SnapshotCache.publish], [], [], by simp⟩
  | some held =>
    have hleads : Leads seen held := h
    by_cases hlt : s.upperBound < held.upperBound
    · simp only [SnapshotCache.publish, if_pos hlt]
      refine ⟨iff_of_false Bool.false_ne_true fun hall => ?_, hleads.append_of_lt hlt⟩
      exact UInt64.not_lt.2 (hall held hleads.mem) hlt
    · have hle : held.upperBound ≤ s.upperBound := UInt64.not_lt.1 hlt
      simp only [SnapshotCache.publish, if_neg hlt]
      exact ⟨⟨fun _ x hx => UInt64.le_trans (hleads.le hx) hle, fun _ => trivial⟩, hleads.append_of_le hle⟩

theorem Holds.publishAll (h : c.Holds seen) (snapshots : List Snapshot) :
    (c.publishAll snapshots).Holds (seen ++ snapshots) := by
  induction snapshots generalizing c seen with
  | nil => simpa [SnapshotCache.publishAll] using h
  | cons s snapshots ih =>
    have hrest := ih (h.publish s).2
    rwa [List.append_assoc, List.singleton_append] at hrest

theorem holds_offered (calls : List Call) : (after calls).Holds (offered calls) := by
  have hnew : Holds {} [] := rfl
  rw [after_eq_publishAll]
  exact hnew.publishAll (offered calls)

theorem Holds.latest_eq_none_iff (h : c.Holds seen) : c.latest = none ↔ seen = [] := by
  unfold Holds at h
  cases hc : c.latest with
  | none => simpa [hc] using h
  | some s =>
    have hleads : Leads seen s := by simpa [hc] using h
    simp [List.ne_nil_of_mem hleads.mem]

theorem Holds.latest_eq_some_iff (h : c.Holds seen) : c.latest = some s ↔ Leads seen s := by
  unfold Holds at h
  cases hc : c.latest with
  | none =>
    have hseen : seen = [] := by simpa [hc] using h
    simpa [hseen] using fun hs : Leads [] s => absurd hs.mem List.not_mem_nil
  | some t =>
    have hleads : Leads seen t := by simpa [hc] using h
    rw [Option.some.injEq]
    exact ⟨fun ht => ht ▸ hleads, fun hs => hleads.unique hs⟩

/-- No snapshot that was seen has a larger bound than the one held. -/
theorem Holds.exists_latest (h : c.Holds seen) (hs : s ∈ seen) :
    ∃ held, c.latest = some held ∧ s.upperBound ≤ held.upperBound := by
  cases hlatest : c.latest with
  | none =>
    rw [h.latest_eq_none_iff.1 hlatest] at hs
    cases hs
  | some held => exact ⟨held, rfl, (h.latest_eq_some_iff.1 hlatest).le hs⟩

/-- A cache is the history of its offers. After any calls it holds the last of the offered
snapshots with the largest bound, so its bound never falls. A publication or refresh tells that
its snapshot is installed exactly if no earlier one had a larger bound; an answer that is no
snapshot changes nothing. A background run is a refresh with every answer that the provider
gives, the one during which the run is told to stop included, and none if it is told before. -/
theorem latest_leads_offered :
    (∀ calls, ((after calls).latest = none ↔ offered calls = []) ∧
      ∀ s, (after calls).latest = some s ↔ Leads (offered calls) s) ∧
    (∀ calls more s, (after calls).latest = some s →
      ∃ t, (after (calls ++ more)).latest = some t ∧ s.upperBound ≤ t.upperBound) ∧
    (∀ calls s, ∃ installed, ((after calls).publish s).1 = installed ∧
      ((after calls).refresh (.ok (some s))).1 = .ok installed ∧
      (installed = true ↔ ∀ x ∈ offered calls, x.upperBound ≤ s.upperBound)) ∧
    (∀ c : SnapshotCache, (c.refresh (.ok none)).1 = .ok false ∧ (c.refresh (.ok none)).2.1 = c) ∧
    (∀ (c : SnapshotCache) (e : Error),
      (c.refresh (.error e)).1 = .error e ∧ (c.refresh (.error e)).2.1 = c) ∧
    (∀ (c : SnapshotCache) (rounds : List Round), c.background true rounds = (rounds, true, c, [])) ∧
    (∀ (c : SnapshotCache) (rounds : List Round),
      c.call (.background false rounds) =
          ((asked rounds).map fun r => Call.refresh r.response).foldl call c ∧
        rounds = asked rounds ++ (c.background false rounds).1) := by
  refine ⟨fun calls => ?_, fun calls more s hs => ?_, fun calls s => ?_, fun c => ⟨rfl, rfl⟩,
    fun c e => ⟨rfl, rfl⟩, fun c rounds => by simp [background], fun c rounds => c.background_asks rounds⟩
  · have hholds := holds_offered calls
    exact ⟨hholds.latest_eq_none_iff, fun s => hholds.latest_eq_some_iff⟩
  · apply (holds_offered (calls ++ more)).exists_latest
    rw [offered, List.flatMap_append]
    exact List.mem_append_left _ ((holds_offered calls).latest_eq_some_iff.1 hs).mem
  · exact ⟨_, rfl, rfl, ((holds_offered calls).publish s).1⟩

end CellStore.SnapshotCache
