import CellStore.Proofs.Maintenance

/-! # Live readers and later snapshots

A transaction that is still running when a later snapshot is published keeps the view
of the snapshot it started from. A writer that it does not see may since have become
settled and valid. A rewrite under the later snapshot takes such a writer's delete
marker for effective and drops what it hides, though the live reader sees it. That is
the only way in which a live reader can lose anything.
-/
namespace CellStore

/-- A snapshot as it may be some time after another one. -/
structure Snapshot.Follows (s₀ s : Snapshot) : Prop where
  readPointer : s₀.readPointer ≤ s.readPointer
  invalid : ∀ x ∈ s₀.invalid, x ∈ s.invalid
  fresh : ∀ x, x ∈ s.invalid ∧ x ∉ s₀.invalid ∨ x ∈ s.inProgress ∧ x ∉ s₀.inProgress →
    x ∈ s₀.inProgress ∨ s₀.readPointer < x

/-- A rewrite under a snapshot spares a reader: in every running region whose source holds this
snapshot its reads, with or without a predicate, stay the same at any clock that is not behind. -/
def Upkeep.Spares (u : Upkeep) (σ : Type) [SnapshotSource σ] (s : Snapshot) (t : Transaction) : Prop :=
  ∀ (h : Host σ) (ctx : Context Unit) (millis : Int), h.Reachable → h.Running ctx →
    h.latest = some s → h.now ≤ Tick.ofClock millis →
    (u = .compact .major → ∀ st, h.store = some st → st.memstore = []) →
    ∀ (r : Read) (caller : Option (Cell → Bool)), r.filter = caller.map .predicate →
      r.attributes.transaction? h.processor.codec = .ok (some t) →
        (Host.read { (h.upkeep u).state with clock := millis } r).result =
          (Host.read { h with clock := millis } r).result

theorem TxId.ne_zero_of_lt {a b : TxId} (h : a < b) : b ≠ 0 := by
  rintro rfl
  exact UInt64.not_lt_zero h

variable {s₀ s : Snapshot} {t : Transaction} {id : TxId}

/-- A live reader tolerates a later snapshot if it sees the settled valid writers above all
it sees. -/
theorem Transaction.start_tolerates (hid : s₀.readPointer < id) (hlive : id ∈ s.inProgress)
    (hf : s₀.Follows s) (hup : ∀ x y, x < y → y ≤ s.upperBound → y ∉ s.invalid →
      (start id s₀).Sees x → (start id s₀).Sees y) :
    (start id s₀).Tolerates s where
  above := Snapshot.upperBound_lt_of_mem hlive (TxId.ne_zero_of_lt hid)
  blind x hx := by
    rintro (hown | ⟨hexcluded, hle, hvalid⟩)
    · exact s.disjoint x hx (hown ▸ hlive)
    · rcases hf.fresh x (.inl ⟨hx, hvalid⟩) with hrunning | hlt
      · exact hexcluded hrunning
      · exact UInt64.not_lt.2 hle hlt
  upward := hup

theorem Upkeep.spares_of_tolerates (u : Upkeep) (ht : t.Tolerates s) (σ : Type) [SnapshotSource σ] :
    u.Spares σ s t := by
  intro h ctx millis hr hrun hlatest hnow hmajor r caller hf hattr
  obtain ⟨st, hst⟩ := hr.open_of_running hrun
  obtain ⟨hrun', hcodec⟩ := hrun.upkeep u
  have htolerates (snapshot : Snapshot) (hsome : h.latest = some snapshot) :
      t.Tolerates snapshot :=
    Option.some.inj (hlatest.symm.trans hsome) ▸ ht
  obtain ⟨st', hst', hshows⟩ := hrun.upkeep_shows hr hst htolerates hnow fun hu => hmajor hu st hst
  exact Host.Running.read_congr (hr.setClock millis) ((hr.upkeep u).setClock millis)
    (hrun.setClock millis) (hrun'.setClock millis) hst hst' hcodec rfl hshows hf hattr

/-! ## A region in which a reader loses a version -/

namespace Store

/-- A store that holds one run, in the part that a flush or compaction goes through. -/
def only (r : List Cell) : Upkeep → Store
  | .flush => ⟨r, []⟩
  | .compact _ => ⟨[], [r]⟩

variable {r file : List Cell} {u : Upkeep} {c : Cell}

theorem mem_part_only (hr : Run.Ordered r) : c ∈ (only r u).part u ↔ c ∈ r := by
  cases u with
  | flush => rfl
  | compact kind => exact Run.mem_merge_singleton hr

theorem mem_contents_only (hr : Run.Ordered r) : c ∈ (only r u).contents ↔ c ∈ r := by
  cases u <;> exact Run.mem_merge_singleton hr

theorem mem_contents_replace_only (hr : Run.Ordered r) (hfile : Run.Ordered file) :
    c ∈ ((only r u).replace file u).contents ↔ c ∈ file := by
  cases u with
  | flush =>
    rw [mem_contents_flushed hfile]
    simp [Run.Overlay, only, fileContents]
  | compact kind =>
    have hw : (only r (.compact kind)).WellFormed := ⟨.nil, by simpa [only] using hr⟩
    rw [mem_contents_compacted hw hfile]
    simp [Run.Overlay, only]

end Store

namespace Host

variable (t s) (x y : TxId)

/-- A version of the empty column. -/
def version (x : TxId) : Cell := ⟨⟨[], [], []⟩, x, [], []⟩

/-- A version and a newer delete marker of its column. -/
def deleted : List Cell := [(version y).asDeleteMarker, version x]

/-- A region that holds a deleted version and whose clients all speak for one transaction. -/
def exposing : Host SnapshotCache :=
  (blank ⟨fun _ => [], fun _ => .ok t⟩).run
    [.put { row := [], cells := [version x] },
      .put (Put.asDelete { row := [], cells := [version y] })]

variable {x y}

theorem deleted_ordered (hlt : x < y) : Run.Ordered (deleted x y) :=
  List.pairwise_pair.2 (Cell.key_lt_of_newer rfl hlt)

theorem exposing_store (hlt : x < y) : (exposing t x y).store = some ⟨deleted x y, []⟩ := by
  have hkey : compare (version y).asDeleteMarker.key (version x).key = .lt :=
    Cell.key_lt_of_newer rfl hlt
  change some (⟨Run.insert (version y).asDeleteMarker [version x], []⟩ : Store) = _
  rw [Run.insert, hkey]
  rfl

/-- The deleted version can be all there is for a flush or compaction to go through. -/
theorem exists_exposed (hlt : x < y) (u : Upkeep) :
    ∃ (h : Host SnapshotCache) (ctx : Context Unit), h.Reachable ∧ h.Running ctx ∧ ctx.ttl = {} ∧
      h.latest = some s ∧ h.clock = 0 ∧
      h.processor.codec = ⟨fun _ => [], fun _ => .ok t⟩ ∧ h.store = some (.only (deleted x y) u) := by
  have hr : (exposing t x y).Reachable := (blank_reachable _).run _
  have hrun : (exposing t x y).Running ⟨(exposing t x y).region, {}, ()⟩ := ⟨rfl, .inr rfl, rfl⟩
  have hs := exposing_store t hlt
  cases u with
  | flush =>
    exact ⟨((exposing t x y).publish s).state, ⟨(exposing t x y).region, {}, ()⟩,
      hr.step (.publish s), ⟨rfl, .inr rfl, rfl⟩, rfl, rfl, rfl, rfl, hs⟩
  | compact kind =>
    obtain ⟨processor, store, hstate, hcodec, hserves⟩ := hrun.upkeep_frame .flush
    -- Without a snapshot the flush leaves all that the memstore held.
    have hflushed : ((exposing t x y).upkeep .flush).state.store = some ⟨[], [deleted x y]⟩ := by
      rcases hrun.upkeep_leaves hs (hr.wellFormed hs) .flush (fun _ h => by cases h) with
        ⟨-, hpolicy, -⟩ | ⟨file, -, hstore, hfile⟩
      · cases hpolicy
      · have hall : file = deleted x y := hfile.ordered.ext (deleted_ordered hlt) fun c => by
          rw [hfile.mem_iff]
          exact and_iff_left (.inr fun _ h => by cases h)
        rw [hstore, hall]
        rfl
    refine ⟨(((exposing t x y).upkeep .flush).state.publish s).state,
      ⟨(exposing t x y).region, {}, ()⟩, (hr.upkeep .flush).step (.publish s), ⟨?_, ?_⟩,
      rfl, ?_, ?_, ?_, hflushed⟩
    · rw [hstate]
      rfl
    · rw [hstate]
      exact hserves
    · rw [hstate]
      rfl
    · rw [hstate]
      rfl
    · rw [hstate]
      exact hcodec

end Host

theorem TtlTable.not_expired_empty {now : TxId} {c : Cell} : ¬TtlTable.Expired {} now c := by
  rintro ⟨cutoff, hcutoff, -⟩
  cases hcutoff

/-- The reader that sees a version, and not the writer who deleted it, is shown the version. -/
theorem View.shows_version {t : Transaction} {now x y : TxId} {u : Upkeep} (hlt : x < y)
    (hx : t.Sees x) (hown : x ≠ t.id) (hy : ¬t.Sees y) :
    View.Shows ⟨t, {}, now⟩ (.only (Host.deleted x y) u) (Host.version x) := by
  have hord := Host.deleted_ordered hlt
  have hw : (Store.only (Host.deleted x y) u).WellFormed := by
    cases u with
    | flush => exact ⟨hord, by simp [Store.only]⟩
    | compact kind => exact ⟨.nil, by simpa [Store.only] using hord⟩
  have hmem {c : Cell} : c ∈ (Store.only (Host.deleted x y) u).contents ↔
      c = (Host.version y).asDeleteMarker ∨ c = Host.version x := by
    rw [Store.mem_contents_only hord]
    simp [Host.deleted]
  have hcand {c : Cell} (hc : View.Candidate ⟨t, {}, now⟩ (.only (Host.deleted x y) u) c) :
      c = Host.version x := by
    obtain ⟨hmc, -, -, -, hp⟩ := (View.candidate_iff hw).1 hc
    refine (hmem.1 hmc).resolve_left ?_
    rintro rfl
    exact hy hp.sees
  refine ⟨(View.candidate_iff hw).2 ⟨hmem.2 (.inr rfl), rfl, ?_, ⟨UInt64.zero_le, ?_⟩, ?_⟩,
    rfl, ?_, .inr ?_⟩
  · rintro ⟨c, hc, -, htomb, -⟩
    rcases hmem.1 hc with rfl | rfl <;> cases htomb
  · exact Transaction.le_maxVisible (hx.resolve_left hown).2.1
  · exact View.passes_of_sees hx TtlTable.not_expired_empty
  · rintro ⟨m, hm, -, hmark, -⟩
    rw [hcand hm] at hmark
    cases hmark
  · rintro ⟨d, hd, -, hlt'⟩
    rw [hcand hd] at hlt'
    exact UInt64.lt_irrefl _ hlt'

/-- A settled valid marker takes the version below it out of the file. -/
theorem Upkeep.Remains.version_lost {u : Upkeep} {x y now : TxId} {file : List Cell} (hlt : x < y)
    (hy : y ≤ s.upperBound) (hvalid : y ∉ s.invalid)
    (hfile : u.Remains (some s) {} now ((Store.only (Host.deleted x y) u).part u) file) :
    Host.version x ∉ file := by
  intro hkept
  rcases ((hfile.mem_iff _).1 hkept).2.retains rfl with ⟨hb, -⟩ | ⟨-, -, -, hhides⟩
  · exact UInt64.not_lt.2 (UInt64.le_trans (UInt64.le_of_lt hlt) hy) hb
  · apply hhides
    refine ⟨(Host.version y).asDeleteMarker, ?_, rfl, ?_, hlt⟩
    · exact (Store.mem_part_only (Host.deleted_ordered hlt)).2 List.mem_cons_self
    · exact ⟨rfl, rfl, hy, hvalid, TtlTable.not_expired_empty⟩

/-- A rewrite takes a version from a reader that sees it, if it was deleted by a settled
valid writer that the reader does not see. -/
theorem Upkeep.not_spares (u : Upkeep) {x y : TxId} (hlt : x < y) (hy : y ≤ s.upperBound)
    (hvalid : y ∉ s.invalid) (habove : s.upperBound < t.id) (hsees : t.Sees x)
    (hunseen : ¬t.Sees y) : ¬u.Spares SnapshotCache s t := by
  intro hspares
  obtain ⟨h, ctx, hr, hrun, httl, hlatest, hclock, hcodec, hs⟩ := Host.exists_exposed s t hlt u
  obtain ⟨hrun', hcodec'⟩ := hrun.upkeep u
  have hord := Host.deleted_ordered hlt
  have hsyn : Store.Unreserved h.latest ((Store.only (Host.deleted x y) u).part u) :=
    Store.unreserved_of_lt fun snapshot hsome => Option.some.inj (hlatest.symm.trans hsome) ▸ habove
  rcases hrun.upkeep_leaves hs (hr.wellFormed hs) u hsyn with ⟨hcold, -⟩ | ⟨file, -, hstore, hfile⟩
  · rw [hlatest] at hcold
    cases hcold
  -- Both regions are read at the clock of the rewrite, for the reader and without a predicate.
  have hf : (Read.allFor h.processor.codec t).filter =
      (none : Option (Cell → Bool)).map .predicate := rfl
  have hattr : (Read.allFor h.processor.codec t).attributes.transaction? h.processor.codec =
      .ok (some t) :=
    Read.allFor_transaction (by rw [hcodec])
  have hnow : h.now = Tick.ofClock 0 := by rw [Host.now, hclock]
  have hmajor : u = .compact .major → ∀ st, h.store = some st → st.memstore = [] := by
    rintro rfl st hst
    cases hs.symm.trans hst
    rfl
  have hsame := hspares h ctx 0 hr hrun hlatest (hnow ▸ UInt64.le_refl _) hmajor _ none hf hattr
  obtain ⟨out, hread, -, hout⟩ := (hrun.setClock 0).read_shows (hr.setClock 0) hs hf hattr
  obtain ⟨out', hread', -, hout'⟩ :=
    (hrun'.setClock 0).read_shows ((hr.upkeep u).setClock 0) hstore hf (by rw [hcodec']; exact hattr)
  rw [hread, hread'] at hsame
  have hown : x ≠ t.id := by
    rintro rfl
    exact UInt64.not_lt.2 (UInt64.le_trans (UInt64.le_of_lt hlt) hy) habove
  have hshown : Host.version x ∈ out := by
    refine (hout _).2 ⟨rfl, rfl, ?_⟩
    rw [httl]
    exact View.shows_version hlt hsees hown hunseen
  have hcand := ((hout' _).1 (Except.ok.inj hsame ▸ hshown)).2.2.candidate
  have hmem := ((View.candidate_iff ((hr.wellFormed hs).replace hfile.ordered u)).1 hcand).1
  rw [hlatest, httl] at hfile
  exact hfile.version_lost hlt hy hvalid ((Store.mem_contents_replace_only hord hfile.ordered).1 hmem)

/-- Which live readers a later snapshot spares. Where a reader began from one snapshot and
still runs in a later one, flushes and compactions under the later one spare it, whatever the
source of snapshots is, if it sees every settled valid writer above an id that it sees. And where
the source is a cache, this is needed. -/
theorem Upkeep.spares_live_reader_iff (u : Upkeep) (hid : s₀.readPointer < id)
    (hlive : id ∈ s.inProgress) (hf : s₀.Follows s) :
    (u.Spares SnapshotCache s (Transaction.start id s₀) ↔
      ∀ x y, x < y → y ≤ s.upperBound → y ∉ s.invalid →
        (Transaction.start id s₀).Sees x → (Transaction.start id s₀).Sees y) ∧
    ((∀ x y, x < y → y ≤ s.upperBound → y ∉ s.invalid →
        (Transaction.start id s₀).Sees x → (Transaction.start id s₀).Sees y) →
      ∀ (σ : Type) [SnapshotSource σ], u.Spares σ s (Transaction.start id s₀)) := by
  have hspares (hup : ∀ x y, x < y → y ≤ s.upperBound → y ∉ s.invalid →
      (Transaction.start id s₀).Sees x → (Transaction.start id s₀).Sees y)
      (σ : Type) [SnapshotSource σ] : u.Spares σ s (Transaction.start id s₀) :=
    u.spares_of_tolerates (Transaction.start_tolerates hid hlive hf hup) σ
  refine ⟨⟨?_, fun hup => hspares hup SnapshotCache⟩, hspares⟩
  intro hcache x y hlt hy hvalid hsees
  by_contra hunseen
  have habove : s.upperBound < id := Snapshot.upperBound_lt_of_mem hlive (TxId.ne_zero_of_lt hid)
  exact u.not_spares hlt hy hvalid habove hsees hunseen hcache

/-! ## A run in which it happens -/

theorem Snapshot.clean_follows {p₀ p : TxId} {running₀ running : List TxId} (hp : p₀ ≤ p)
    (hfresh : ∀ x ∈ running, x ∈ running₀ ∨ p₀ < x) :
    (clean p₀ running₀).Follows (clean p running) where
  readPointer := hp
  invalid _ h := absurd h List.not_mem_nil
  fresh x hx := by
    rcases hx with ⟨hinvalid, -⟩ | ⟨hrunning, -⟩
    · exact absurd hinvalid List.not_mem_nil
    · exact (hfresh x (IdSet.mem_ofList.1 hrunning)).imp IdSet.mem_ofList.2 id

/-- All that is settled once 200 has begun is seen by 200, so it loses nothing. -/
theorem Upkeep.flush_spares_unsettled :
    Upkeep.flush.Spares SnapshotCache (.clean 100 [150, 200]) (.start 200 (.clean 100 [150])) := by
  have hf : (Snapshot.clean 100 [150]).Follows (.clean 100 [150, 200]) :=
    Snapshot.clean_follows (by decide) (List.forall_mem_cons.2 ⟨by decide, by simp⟩)
  refine (Upkeep.flush.spares_live_reader_iff (by decide) (by decide) hf).1.2 ?_
  intro x y _ hy _ _
  refine .inr ⟨?_, hy, ?_⟩
  · intro hex
    rw [IdSet.mem_ofList.1 hex |> List.mem_singleton.1] at hy
    exact absurd hy (by decide)
  · exact List.not_mem_nil

/-- A region with a version of the transaction 50, deleted by 150, which has committed. -/
def Host.overtaken : Host SnapshotCache :=
  (blank .messagePack).run
    [.put { row := [], cells := [version 50] },
      .put (Put.asDelete { row := [], cells := [version 150] }),
      .publish (.clean 180 [200])]

/-- The transaction 200 began before 150 committed and still runs, and a flush takes the
version that it sees. -/
theorem Upkeep.flush_robs_live_reader :
    (Snapshot.clean 100 [150]).readPointer < 200 ∧
      (200 : TxId) ∈ (Snapshot.clean 180 [200]).inProgress ∧
      (Snapshot.clean 100 [150]).Follows (.clean 180 [200]) ∧
      (Host.overtaken.read (.allFor .messagePack (.start 200 (.clean 100 [150])))).result =
        .ok [Host.version 50] ∧
      (Host.overtaken.flush.state.read
        (.allFor .messagePack (.start 200 (.clean 100 [150])))).result = .ok [] ∧
      ¬Upkeep.flush.Spares SnapshotCache (.clean 180 [200]) (.start 200 (.clean 100 [150])) := by
  have hf : (Snapshot.clean 100 [150]).Follows (.clean 180 [200]) :=
    Snapshot.clean_follows (by decide) (List.forall_mem_cons.2 ⟨by decide, by simp⟩)
  refine ⟨by decide, by decide, hf, rfl, rfl, ?_⟩
  apply Upkeep.flush.not_spares (x := 50) (y := 150) (by decide) (by decide) (by decide) (by decide)
  · exact .inr (by decide)
  · rintro (hown | ⟨hex, -⟩)
    · exact absurd hown (by decide)
    · exact hex (by decide)

end CellStore
