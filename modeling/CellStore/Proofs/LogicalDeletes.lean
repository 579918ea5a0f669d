import CellStore.Proofs.LastWrites
import CellStore.Proofs.Shadows

/-! # Logical deletes

Of a logical delete a running region gets a delete marker for every cell, whatever tags the cell
had, and the marker stands where a version stands. So the delete changes what is held at the keys
of its cells and nothing else: it removes no tombstone and adds none. A reader that can see one of
the markers reads nothing of the column at or below it.
-/
namespace CellStore

/-- Placing a version neither adds a tombstone nor takes one away. -/
theorem Run.countP_isTombstone_insert {c : Cell} (hc : c.isTombstone = false) (r : List Cell) :
    (Run.insert c r).countP Cell.isTombstone = r.countP Cell.isTombstone := by
  induction r with
  | nil => simp [Run.insert, hc]
  | cons d ds ih =>
    unfold Run.insert
    split
    · rw [List.countP_cons_of_neg (by simp [hc])]
    · rename_i heq
      have hkey : c.key = d.key := Std.compare_eq_iff_eq.1 heq
      have hd : d.isTombstone = false := (congrArg Key.tombstone hkey).symm.trans hc
      rw [List.countP_cons_of_neg (by simp [hc]), List.countP_cons_of_neg (by simp [hd])]
    · rw [List.countP_cons, List.countP_cons, ih]

namespace Store

variable {s : Store} {cells : List Cell} {c : Cell}

theorem tombstoneCount_write (s : Store) (hcells : ∀ c ∈ cells, c.isTombstone = false) :
    (s.write cells).tombstoneCount = s.tombstoneCount := by
  have hfold (m : List Cell) : (cells.foldl (fun m c => Run.insert c m) m).countP Cell.isTombstone =
      m.countP Cell.isTombstone := by
    induction cells generalizing m with
    | nil => rfl
    | cons c cs ih =>
      rw [List.forall_mem_cons] at hcells
      rw [List.foldl_cons, ih hcells.2, Run.countP_isTombstone_insert hcells.1]
  simp only [tombstoneCount, write, List.flatten_cons, List.countP_append, hfold]

/-- After a write a store holds the last cell written at every key, and of the other keys what it
held before. -/
theorem WellFormed.mem_contents_write (hw : s.WellFormed) :
    c ∈ (s.write cells).contents ↔
      Run.Last cells c ∨ c ∈ s.contents ∧ ∀ d ∈ cells, d.key ≠ c.key := by
  have hnone : Run.lookup c.key cells.reverse = none ↔ ∀ d ∈ cells, d.key ≠ c.key := by
    simp [Run.lookup]
  rw [mem_contents_iff_lookup, hw.lookup_write, Option.or_eq_some_iff,
    Run.lookup_reverse_eq_some_iff, hnone, ← mem_contents_iff_lookup, and_iff_left rfl, and_comm]

end Store

namespace Put

variable {p : Put} {c d : Cell}

/-- The last cell that a put has for its column and timestamp. -/
def Last (p : Put) (d : Cell) : Prop :=
  ∃ before after, p.cells = before ++ d :: after ∧
    ∀ e ∈ after, e.column = d.column → e.timestamp ≠ d.timestamp

/-- The last marker at a key is that of the last cell there. -/
theorem last_markers : Run.Last p.markers.cells c ↔ ∃ d, p.Last d ∧ c = d.asDeleteMarker := by
  have hkey (d e : Cell) : e.asDeleteMarker.key ≠ d.asDeleteMarker.key ↔
      (e.column = d.column → e.timestamp ≠ d.timestamp) := by
    simp
  constructor
  · rintro ⟨before, after, hsplit, hafter⟩
    obtain ⟨before', rest, hcells, rfl, hrest⟩ := List.map_eq_append_iff.1 hsplit
    obtain ⟨d, after', rfl, rfl, rfl⟩ := List.map_eq_cons_iff.1 hrest
    refine ⟨d, ⟨before', after', hcells, fun e he => ?_⟩, rfl⟩
    exact (hkey d e).1 (hafter _ (List.mem_map_of_mem he))
  · rintro ⟨d, ⟨before, after, hcells, hafter⟩, rfl⟩
    refine ⟨before.map Cell.asDeleteMarker, after.map Cell.asDeleteMarker,
      by simp [markers, hcells], ?_⟩
    intro m hm
    obtain ⟨e, he, rfl⟩ := List.mem_map.1 hm
    exact (hkey d e).2 (hafter e he)

theorem exists_last (hd : d ∈ p.cells) :
    ∃ e, p.Last e ∧ e.column = d.column ∧ e.timestamp = d.timestamp := by
  have hfound : ∃ c, Run.lookup d.asDeleteMarker.key p.markers.cells.reverse = some c := by
    rw [← Option.isSome_iff_exists, Run.lookup, List.find?_isSome]
    exact ⟨d.asDeleteMarker, by simpa [markers] using ⟨d, hd, rfl⟩, by simp⟩
  obtain ⟨c, hc⟩ := hfound
  obtain ⟨hlast, hkey⟩ := Run.lookup_reverse_eq_some_iff.1 hc
  obtain ⟨e, he, rfl⟩ := last_markers.1 hlast
  simp only [Cell.asDeleteMarker_key, Key.mk.injEq] at hkey
  exact ⟨e, he, hkey.1, hkey.2.1⟩

end Put

/-- A delete marker in the place of a cell: the same version, with one tag and no other. -/
structure Cell.Marks (m d : Cell) : Prop where
  column : m.column = d.column
  timestamp : m.timestamp = d.timestamp
  value : m.value = d.value
  tags : m.tags = [⟨99, [1]⟩]

theorem Cell.marks_iff {m d : Cell} : m.Marks d ↔ m = d.asDeleteMarker := by
  constructor
  · intro h
    cases m
    cases d
    obtain ⟨rfl, rfl, rfl, rfl⟩ := h
    rfl
  · rintro rfl
    exact ⟨rfl, rfl, rfl, rfl⟩

/-- What a logical delete makes of a store. -/
structure Store.Marked (s s' : Store) (p : Put) : Prop where
  ordered : Run.Ordered s'.contents
  /-- Every cell of the put has its marker, with the value of the last cell at the same place. -/
  mem_iff : ∀ c, c ∈ s'.contents ↔ (∃ d, p.Last d ∧ c.Marks d) ∨
    c ∈ s.contents ∧ ∀ d ∈ p.cells, c.key ≠ ⟨d.column, d.timestamp, false⟩
  tombstones : s'.tombstoneCount = s.tombstoneCount

theorem Store.WellFormed.marked {s : Store} (hw : s.WellFormed) (p : Put) :
    s.Marked (s.write p.markers.cells) p where
  ordered := Store.ordered_contents _
  mem_iff c := by
    have hfree : (∀ m ∈ p.markers.cells, m.key ≠ c.key) ↔
        ∀ d ∈ p.cells, c.key ≠ ⟨d.column, d.timestamp, false⟩ := by
      rw [Put.markers, List.forall_mem_map]
      exact forall₂_congr fun d _ => ne_comm
    simp only [hw.mem_contents_write, Put.last_markers, hfree, Cell.marks_iff]
  tombstones := by
    apply s.tombstoneCount_write
    intro m hm
    obtain ⟨d, -, rfl⟩ := List.mem_map.1 hm
    rfl

/-- A reader can see the marker of a cell if a version in the place of the cell passes for it, lies in
its time range and is not masked. -/
theorem View.candidate_marker {s : Store} (hw : s.WellFormed) {v : View} {p : Put} {d : Cell}
    (hd : d ∈ p.cells) (hp : v.Passes d)
    (hrange : v.ttl.oldestVisible v.now ≤ d.timestamp ∧ d.timestamp ≤ v.reader.maxVisible)
    (hmask : ¬(s.write p.markers.cells).Masks d) :
    ∃ m, v.Candidate (s.write p.markers.cells) m ∧ m.isDeleteMarker = true ∧ m.column = d.column ∧
      m.timestamp = d.timestamp := by
  obtain ⟨e, he, hcol, htime⟩ := Put.exists_last hd
  rw [Store.masks_iff] at hmask
  refine ⟨e.asDeleteMarker, ?_, rfl, hcol, htime⟩
  rw [candidate_iff (hw.write _), hw.mem_contents_write]
  refine ⟨.inl (Put.last_markers.2 ⟨e, he, rfl⟩), rfl, fun hmasked => hmask ?_, ?_, ?_⟩
  · exact hmasked.anti hcol.symm (UInt64.le_of_eq htime.symm)
  · exact htime ▸ hrange
  · exact hp.congr hcol htime

namespace Host

variable {σ : Type} {h : Host σ} {ctx : Context Unit} {s : Store} {p : Put}

theorem Running.put_result (hrun : h.Running ctx) (hs : h.store = some s) (p : Put) :
    (h.put p).result = .ok () := by
  obtain ⟨p', hp', -⟩ := hrun.preparePut_result p
  have hresult : (h.ask p (·.preparePut p)).result = .ok p' := (hrun.ask_result p _).trans hp'
  rw [put, onStore, hs]
  exact (Outcome.andThen_ok hresult _).1

variable [SnapshotSource σ]

/-- Logical deletes become delete markers and nothing else. A logical delete to a running region
succeeds. At the place of each of its cells the region then holds a version with the value of the
last such cell and the delete marker as its only tag; at all other keys it holds what it held, and
no tombstone comes or goes. A reader for whom a deleted version passes, lies in the time range and
is not masked reads from its column strictly newer versions only, whatever filter it adds. -/
theorem put_delete_marks (hr : h.Reachable) (hrun : h.Running ctx) (hs : h.store = some s)
    (hdelete : p.isDelete = true) :
    (h.put p).result = .ok () ∧ ∃ s', (h.put p).state.store = some s' ∧ s.Marked s' p ∧
      ∀ (t : Transaction) (millis : Int), ∀ d ∈ p.cells,
        View.Passes ⟨t, ctx.ttl, Tick.ofClock millis⟩ d →
        ctx.ttl.oldestVisible (Tick.ofClock millis) ≤ d.timestamp → d.timestamp ≤ t.maxVisible →
        ¬s'.Masks d → ∀ r : Read, r.attributes.transaction? h.processor.codec = .ok (some t) →
          (∀ caller : Option (Cell → Bool), r.filter = caller.map .predicate →
            ∃ out, (read { (h.put p).state with clock := millis } r).result = .ok out) ∧
          ∀ out, (read { (h.put p).state with clock := millis } r).result = .ok out →
            ∀ c ∈ out, c.column = d.column → d.timestamp < c.timestamp := by
  have hw := hr.wellFormed hs
  have hwrites : Operation.writes (.put p) = p.markers.cells := by simp [Operation.writes, hdelete]
  have hstate := hrun.put_state hs p
  rw [hwrites] at hstate
  have hs' : (h.put p).state.store = some (s.write p.markers.cells) := by rw [hstate]
  refine ⟨hrun.put_result hs p, s.write p.markers.cells, hs', hw.marked p, ?_⟩
  intro t millis d hd hpasses holdest hnewest hmask r ht
  have hr' : Reachable { (h.put p).state with clock := millis } := (hr.step (.put p)).setClock millis
  have hgoes : (Operation.put p).GoesOn := ⟨by simp, by simp⟩
  have hrun' : Running { (h.put p).state with clock := millis } ctx :=
    (hrun.apply hr hgoes).setClock millis
  have ht' : r.attributes.transaction? (h.put p).state.processor.codec = .ok (some t) := by
    rwa [hstate]
  refine ⟨fun caller hf => ?_, fun out hout c hc hcol => ?_⟩
  · obtain ⟨out, hout, -⟩ := hrun'.read_shows hr' hs' hf ht'
    exact ⟨out, hout⟩
  · obtain ⟨bytes, hattr, hdec⟩ := Attributes.transaction_eq_some_iff.1 ht'
    rw [hrun'.read_result hs' hattr, hdec] at hout
    obtain ⟨m, hm, hmarker, hmcol, hmtime⟩ := View.candidate_marker
      (v := ⟨t, ctx.ttl, Tick.ofClock millis⟩) hw hd hpasses ⟨holdest, hnewest⟩ hmask
    rw [← hmtime]
    exact (hw.write _).read_above_marker hout hm hmarker hc (hcol.trans hmcol.symm)

/-- A region with a version in a file, a newer one in the memstore, and a tombstone below both. -/
def layered : Host SnapshotCache :=
  written.run [.flush, .put { row := [1], cells := [⟨⟨[1], [2], [3]⟩, 14, [8], []⟩] },
    .delete ⟨[1], [2], [3]⟩ 5]

/-- A logical delete of the version in the file, and twice of one between the others; one of these
cells has the tag of a tombstone. -/
def erasure : Put :=
  Put.asDelete { row := [1], cells := [⟨⟨[1], [2], [3]⟩, 10, [1], []⟩,
    ⟨⟨[1], [2], [3]⟩, 12, [2], [Tag.tombstone]⟩, ⟨⟨[1], [2], [3]⟩, 12, [3], [⟨5, [6]⟩]⟩] }

theorem put_delete_marks_layered :
    (layered.put erasure).result = .ok () ∧ ∃ s', (layered.put erasure).state.store = some s' ∧
      Store.Marked ⟨[⟨⟨[1], [2], [3]⟩, 14, [8], []⟩, ⟨⟨[1], [2], [3]⟩, 5, [], [Tag.tombstone]⟩],
        [[⟨⟨[1], [2], [3]⟩, 10, [7], []⟩]]⟩ s' erasure ∧
      ∀ out, (read { (layered.put erasure).state with clock := 3 }
          (.allFor .messagePack (.ofLists 20 15 [11] [3]))).result = .ok out →
        ∀ c ∈ out, c.column = ⟨[1], [2], [3]⟩ → 12 < c.timestamp := by
  have hr : layered.Reachable := ((blank_reachable _).run _).run _
  have hrun : layered.Running ⟨written.region, {}, ()⟩ := ⟨rfl, .inr rfl, rfl⟩
  obtain ⟨hok, s', hs', hmarked, hreads⟩ := put_delete_marks hr hrun rfl (p := erasure) rfl
  refine ⟨hok, s', hs', hmarked, ?_⟩
  have hmask : ¬s'.Masks ⟨⟨[1], [2], [3]⟩, 12, [3], [⟨5, [6]⟩]⟩ := by
    cases hs'
    rw [Store.Masks, Cell.Masked]
    decide
  have hpasses : View.Passes ⟨.ofLists 20 15 [11] [3], {}, Tick.ofClock 3⟩
      ⟨⟨[1], [2], [3]⟩, 12, [3], [⟨5, [6]⟩]⟩ := View.obstacle_eq_none_iff.1 rfl
  have hcell : ⟨⟨[1], [2], [3]⟩, 12, [3], [⟨5, [6]⟩]⟩ ∈ erasure.cells := by
    simp [erasure, Put.asDelete]
  exact (hreads (.ofLists 20 15 [11] [3]) 3 _ hcell hpasses (by decide) (by decide) hmask
    (.allFor .messagePack (.ofLists 20 15 [11] [3])) (Read.allFor_transaction rfl)).2

example : ((layered.put erasure).state.read (.allFor .messagePack (.ofLists 20 15 [11] [3]))).result =
    .ok [⟨⟨[1], [2], [3]⟩, 14, [8], []⟩] := rfl

end Host

end CellStore
