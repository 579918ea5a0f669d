import Mathlib.Logic.Relation
import CellStore.Proofs.Transparency

/-! # Maintenance that readers do not notice

A reader agrees with a snapshot if both give the same verdict on all that is settled.
Any sequence of flushes and compactions whose snapshots a reader agrees with leaves its
reads as they are, as long as every major compaction finds the memstore empty and the
reads look at a clock that is not behind. A live reader does not agree with later
snapshots in general; whether a rewrite under one spares it is a matter of the ids that
it does not see.
-/
namespace CellStore

namespace Snapshot

theorem upperBound_le_readPointer (s : Snapshot) : s.upperBound ≤ s.readPointer := by
  unfold upperBound
  split
  · change (if TxId.pred _ ≤ s.readPointer then TxId.pred _ else s.readPointer) ≤ s.readPointer
    split_ifs with h
    · exact h
    · exact UInt64.le_refl _
  · exact UInt64.le_refl _

theorem upperBound_le_pred {s : Snapshot} {id : TxId} (h : id ∈ s.inProgress) :
    s.upperBound ≤ id.pred := by
  obtain ⟨first, rest, hids⟩ : ∃ first rest, s.inProgress.ids = first :: rest := by
    cases hids : s.inProgress.ids with
    | nil =>
      rw [IdSet.mem_def, hids] at h
      cases h
    | cons first rest => exact ⟨first, rest, rfl⟩
  have hfirst : first ≤ id := by
    rw [IdSet.mem_def, hids] at h
    rcases List.mem_cons.1 h with rfl | hrest
    · exact UInt64.le_refl _
    · have hinc := s.inProgress.increasing
      rw [hids] at hinc
      exact UInt64.le_of_lt ((List.pairwise_cons.1 hinc).1 id hrest)
  have hbound : s.upperBound ≤ TxId.pred first := by
    simp only [upperBound, hids, List.head?_cons]
    change (if TxId.pred first ≤ s.readPointer then TxId.pred first else s.readPointer) ≤ _
    split_ifs with hle
    · exact UInt64.le_refl _
    · exact UInt64.le_of_lt (UInt64.not_le.1 hle)
  refine UInt64.le_trans hbound ?_
  rw [UInt64.le_iff_toNat_le, TxId.pred_toNat, TxId.pred_toNat]
  exact Nat.sub_le_sub_right (UInt64.le_iff_toNat_le.1 hfirst) 1

/-- The settled bound stops short of every running id but zero. -/
theorem upperBound_lt_of_mem {s : Snapshot} {id : TxId} (h : id ∈ s.inProgress) (h0 : id ≠ 0) :
    s.upperBound < id := by
  refine UInt64.lt_of_le_of_lt (upperBound_le_pred h) ?_
  have hpos : id.toNat ≠ 0 := fun hz => h0 (UInt64.toNat_inj.1 hz)
  rw [UInt64.lt_iff_toNat_lt, TxId.pred_toNat]
  omega

end Snapshot

/-- A reader agrees with a snapshot on all that is settled. -/
structure Transaction.Agrees (t : Transaction) (s : Snapshot) : Prop where
  above : s.upperBound < t.id
  alive : t.id ∉ s.invalid
  reaches : s.upperBound ≤ t.upperBound
  invalid : ∀ x ∈ s.invalid, x ∈ t.invalid
  settled : ∀ x, x ≤ s.upperBound → x ∈ t.excluded ∨ x ∈ t.invalid → x ∈ s.invalid

theorem Transaction.Agrees.tolerates {t : Transaction} {s : Snapshot} (h : t.Agrees s) :
    t.Tolerates s where
  above := h.above
  blind x hx := by
    rintro (hown | ⟨-, -, hvalid⟩)
    · exact h.alive (hown ▸ hx)
    · exact hvalid (h.invalid x hx)
  upward x y _ hy hvalid _ := by
    exact .inr ⟨fun hex => hvalid (h.settled y hy (.inl hex)), UInt64.le_trans hy h.reaches,
      fun hdead => hvalid (h.settled y hy (.inr hdead))⟩

/-- A transaction agrees with the snapshot that it starts from. -/
theorem Transaction.start_agrees {id : TxId} {s : Snapshot} (hid : s.upperBound < id)
    (hvalid : id ∉ s.invalid) (h0 : (0 : TxId) ∉ s.inProgress) :
    (Transaction.start id s).Agrees s where
  above := hid
  alive := hvalid
  reaches := s.upperBound_le_readPointer
  invalid _ h := h
  settled x hx h := by
    rcases h with hex | hdead
    · exact absurd (Snapshot.upperBound_lt_of_mem hex fun he => h0 (he ▸ hex)) (UInt64.not_lt.2 hx)
    · exact hdead

namespace Host

variable {σ : Type} {h h' : Host σ} {ctx : Context Unit} {s s' : Store} {t : Transaction}
  {millis : Int}

theorem Running.setClock (hrun : h.Running ctx) (millis : Int) :
    Running { h with clock := millis } ctx :=
  ⟨hrun.observed, hrun.serves⟩

variable [SnapshotSource σ]

/-- A flush or compaction changes only the store and that the processor is active. -/
theorem Running.upkeep_frame (hrun : h.Running ctx) (u : Upkeep) :
    ∃ processor store, (h.upkeep u).state = { h with processor, store } ∧
      processor.codec = h.processor.codec ∧ processor.Serves ctx := by
  rw [upkeep_eq, onStore]
  cases hs : h.store with
  | none => exact ⟨h.processor, h.store, rfl, rfl, hrun.serves⟩
  | some s =>
    dsimp only
    split_ifs
    · exact ⟨h.processor, h.store, rfl, rfl, hrun.serves⟩
    · unfold Outcome.andThen
      rw [hrun.openScan_state]
      split
      · exact ⟨_, h.store, rfl, rfl, hrun.serves.activated⟩
      · exact ⟨_, _, rfl, rfl, hrun.serves.activated⟩

theorem Running.upkeep (hrun : h.Running ctx) (u : Upkeep) :
    (h.upkeep u).state.Running ctx ∧ (h.upkeep u).state.processor.codec = h.processor.codec := by
  obtain ⟨processor, store, hstate, hcodec, hserves⟩ := hrun.upkeep_frame u
  rw [hstate]
  exact ⟨⟨hrun.observed, hserves⟩, hcodec⟩

theorem Reachable.upkeep (hr : h.Reachable) (u : Upkeep) : (h.upkeep u).state.Reachable := by
  cases u with
  | flush => exact hr.step .flush
  | compact kind => exact hr.step (.compact kind)

theorem Reachable.setClock (hr : h.Reachable) (millis : Int) :
    Reachable { h with clock := millis } :=
  hr.step (.setClock millis)

/-- What a tolerant reader is shown stays the same over a flush or compaction. -/
theorem Running.upkeep_shows (hr : h.Reachable) (hrun : h.Running ctx) (hs : h.store = some s)
    {u : Upkeep} {now : TxId}
    (ht : ∀ snapshot, h.latest = some snapshot → t.Tolerates snapshot) (hnow : h.now ≤ now)
    (hmajor : u = .compact .major → s.memstore = []) :
    ∃ s', (h.upkeep u).state.store = some s' ∧
      ∀ c, View.Shows ⟨t, ctx.ttl, now⟩ s' c ↔ View.Shows ⟨t, ctx.ttl, now⟩ s c := by
  have hw := hr.wellFormed hs
  have hsyn : Store.Unreserved h.latest (s.part u) :=
    Store.unreserved_of_lt fun snapshot hsome => (ht snapshot hsome).above
  rcases hrun.upkeep_leaves hs hw u hsyn with ⟨-, -, -, hstore⟩ | ⟨file, -, hstore, hfile⟩
  · exact ⟨s, hstore, fun _ => Iff.rfl⟩
  · exact ⟨_, hstore, View.shows_replace_iff hw hfile ht hnow hmajor⟩

/-- Two regions that show a reader the same answer its reads the same. -/
theorem Running.read_congr (hr : h.Reachable) (hr' : h'.Reachable) (hrun : h.Running ctx)
    (hrun' : h'.Running ctx) (hs : h.store = some s) (hs' : h'.store = some s')
    (hcodec : h'.processor.codec = h.processor.codec) (hnow : h'.now = h.now)
    (hshows : ∀ c, View.Shows ⟨t, ctx.ttl, h.now⟩ s' c ↔ View.Shows ⟨t, ctx.ttl, h.now⟩ s c)
    {r : Read} {caller : Option (Cell → Bool)} (hf : r.filter = caller.map .predicate)
    (ht : r.attributes.transaction? h.processor.codec = .ok (some t)) :
    (h'.read r).result = (h.read r).result := by
  obtain ⟨out, hread, hord, hout⟩ := hrun.read_shows hr hs hf ht
  obtain ⟨out', hread', hord', hout'⟩ := hrun'.read_shows hr' hs' hf (hcodec ▸ ht)
  have hsame : out' = out := hord'.ext hord fun c => by rw [hout, hout', hnow, hshows]
  rw [hread, hread', hsame]

/-- One step of the maintenance of a region, at no later time than `now`: a flush or
compaction under a snapshot that the reader agrees with or under none, a publication, or a
turn of the clock. -/
inductive Maintains (t : Transaction) (now : TxId) : Host σ → Host σ → Prop
  | upkeep {h : Host σ} (u : Upkeep)
    (hagrees : ∀ snapshot, h.latest = some snapshot → t.Agrees snapshot)
    (hnow : h.now ≤ now) (hmajor : u = .compact .major → ∀ s, h.store = some s → s.memstore = []) :
    Maintains t now h (h.upkeep u).state
  | publish {h : Host σ} (snapshot : Snapshot) : Maintains t now h (h.publish snapshot).state
  | setClock {h : Host σ} (millis : Int) : Maintains t now h { h with clock := millis }

/-- What maintenance leaves as it is. -/
structure Maintained (h h' : Host σ) (ctx : Context Unit) (t : Transaction) (now : TxId) : Prop where
  reachable : h'.Reachable
  running : h'.Running ctx
  codec : h'.processor.codec = h.processor.codec
  shows : ∀ s, h.store = some s → ∃ s', h'.store = some s' ∧
    ∀ c, View.Shows ⟨t, ctx.ttl, now⟩ s' c ↔ View.Shows ⟨t, ctx.ttl, now⟩ s c

theorem Maintained.refl {now : TxId} (hr : h.Reachable) (hrun : h.Running ctx) :
    Maintained h h ctx t now :=
  ⟨hr, hrun, rfl, fun s hs => ⟨s, hs, fun _ => Iff.rfl⟩⟩

theorem Maintained.trans {h₁ h₂ : Host σ} {now : TxId} (hfirst : Maintained h h₁ ctx t now)
    (hnext : Maintained h₁ h₂ ctx t now) :
    Maintained h h₂ ctx t now := by
  refine ⟨hnext.reachable, hnext.running, hnext.codec.trans hfirst.codec, fun s hs => ?_⟩
  obtain ⟨s₁, hs₁, hshows₁⟩ := hfirst.shows s hs
  obtain ⟨s₂, hs₂, hshows₂⟩ := hnext.shows s₁ hs₁
  exact ⟨s₂, hs₂, fun c => (hshows₂ c).trans (hshows₁ c)⟩

theorem Maintains.maintained {now : TxId} (hr : h.Reachable) (hrun : h.Running ctx)
    (hstep : Maintains t now h h') :
    Maintained h h' ctx t now := by
  cases hstep with
  | upkeep u hagrees hnow hmajor =>
    obtain ⟨hrun', hcodec⟩ := hrun.upkeep u
    refine ⟨hr.upkeep u, hrun', hcodec, fun s hs => ?_⟩
    have htolerates := fun snapshot hsome => (hagrees snapshot hsome).tolerates
    exact hrun.upkeep_shows hr hs htolerates hnow fun hu => hmajor hu s hs
  | publish snapshot =>
    exact ⟨hr.step (.publish snapshot), ⟨hrun.observed, hrun.serves⟩, rfl,
      fun s hs => ⟨s, hs, fun _ => Iff.rfl⟩⟩
  | setClock millis =>
    exact ⟨hr.setClock millis, hrun.setClock millis, rfl, fun s hs => ⟨s, hs, fun _ => Iff.rfl⟩⟩

theorem maintained_of_steps {now : TxId} (hr : h.Reachable) (hrun : h.Running ctx)
    (hsteps : Relation.ReflTransGen (Maintains t now) h h') : Maintained h h' ctx t now := by
  induction hsteps with
  | refl => exact .refl hr hrun
  | tail _ hstep ih => exact ih.trans (hstep.maintained ih.reachable ih.running)

/-- Maintenance is invisible to a reader that agrees with its snapshots, as one does that
started from them: whatever flushes and compactions a running region goes through, its reads
without a filter stay the same at any clock that is not behind. -/
theorem reads_survive_maintenance :
    (∀ (id : TxId) (s : Snapshot), s.upperBound < id → id ∉ s.invalid → (0 : TxId) ∉ s.inProgress →
      (Transaction.start id s).Agrees s) ∧
    ∀ {h h' : Host σ} {ctx : Context Unit} {t : Transaction} {millis : Int},
      h.Reachable → h.Running ctx → Relation.ReflTransGen (Maintains t (Tick.ofClock millis)) h h' →
      ∀ r : Read, r.filter = none →
        r.attributes.transaction? h.processor.codec = .ok (some t) →
          (read { h' with clock := millis } r).result =
            (read { h with clock := millis } r).result := by
  refine ⟨fun id s hid hvalid h0 => Transaction.start_agrees hid hvalid h0, ?_⟩
  intro h h' ctx t millis hr hrun hsteps r hf ht
  have hkept := maintained_of_steps hr hrun hsteps
  obtain ⟨s, hs⟩ := hr.open_of_running hrun
  obtain ⟨s', hs', hshows⟩ := hkept.shows s hs
  have hf' : r.filter = (none : Option (Cell → Bool)).map .predicate := hf
  exact Running.read_congr (hr.setClock millis) (hkept.reachable.setClock millis)
    (hrun.setClock millis) (hkept.running.setClock millis) hs hs' hkept.codec rfl hshows hf' ht

/-- A region that holds one version, with a snapshot for which it is settled. -/
def settledRegion : Host SnapshotCache := (written.publish (.clean 15 [17])).state

theorem reads_survive_flush_of_settled :
    (read { settledRegion.flush.state with clock := 3 }
      (.allFor .messagePack (.start 20 (.clean 15 [17])))).result =
    (read { settledRegion with clock := 3 }
      (.allFor .messagePack (.start 20 (.clean 15 [17])))).result := by
  have hr : settledRegion.Reachable := ((blank_reachable _).run _).step (.publish _)
  have hrun : settledRegion.Running ⟨written.region, {}, ()⟩ := ⟨rfl, .inr rfl, rfl⟩
  have hstep : Maintains (.start 20 (.clean 15 [17])) (Tick.ofClock 3) settledRegion
      settledRegion.flush.state := by
    refine .upkeep .flush (fun snapshot hsome => ?_) (by decide) (fun h => by cases h)
    cases hsome
    exact (reads_survive_maintenance (σ := SnapshotCache)).1 20 _ (by decide) (by decide) (by decide)
  exact (reads_survive_maintenance (σ := SnapshotCache)).2 hr hrun (.single hstep) _ rfl
    (Read.allFor_transaction rfl)

end Host

end CellStore
