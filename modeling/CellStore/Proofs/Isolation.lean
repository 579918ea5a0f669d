import CellStore.Proofs.Histories

/-! # Writers that a reader does not see

What a reader does not see has no part in what it is shown: it is no candidate, it hides
nothing, and a cell that it replaces was no candidate either. Versions may therefore be put
anywhere between the others without a reader noticing, as long as it does not see their
writers. A tombstone is different, since it masks for every reader.
-/
namespace CellStore

namespace View

variable {v : View} {s s' : Store} {cells : List Cell} {c : Cell}

/-- What is shown is a matter of the candidates. -/
theorem shows_congr (h : ∀ c, v.Candidate s c ↔ v.Candidate s' c) : v.Shows s c ↔ v.Shows s' c := by
  constructor
  · exact fun hs => hs.of_newer ((h c).1 hs.candidate) fun d _ _ => (h d).2
  · exact fun hs => hs.of_newer ((h c).2 hs.candidate) fun d _ _ => (h d).1

theorem candidate_write_iff (hw : s.WellFormed)
    (hcells : ∀ d ∈ cells, d.isTombstone = false ∧ ¬v.reader.Sees d.timestamp) :
    v.Candidate (s.write cells) c ↔ v.Candidate s c := by
  -- Neither a tombstone nor a version that the reader sees stands where a cell is written.
  have hmem {d : Cell} (hd : d.isTombstone = true ∨ v.reader.Sees d.timestamp) :
      d ∈ (s.write cells).contents ↔ d ∈ s.contents := by
    apply hw.mem_contents_write_iff
    intro e he hkey
    obtain ⟨hversion, hunseen⟩ := hcells e he
    simp only [Cell.key, Key.mk.injEq] at hkey
    rcases hd with htomb | hsees
    · simp [htomb, hversion] at hkey
    · exact hunseen (hkey.2.1 ▸ hsees)
  have hmasked : c.Masked (s.write cells).contents ↔ c.Masked s.contents := by
    apply exists_congr
    intro t
    apply and_congr_left
    rintro ⟨-, htomb, -⟩
    exact hmem (.inl htomb)
  rw [candidate_iff (hw.write cells), candidate_iff hw, hmasked]
  by_cases hp : v.Passes c
  · rw [hmem (.inr hp.sees)]
  · simp [hp]

end View

namespace Host

variable {σ : Type} [SnapshotSource σ] {h : Host σ} {ctx : Context Unit} {t : Transaction} {p : Put}
  {now : TxId}

theorem Operation.mem_writes_put {c : Cell} (hc : c ∈ Operation.writes (.put p)) :
    ∃ d ∈ p.cells, c.timestamp = d.timestamp ∧ (d.isTombstone = false → c.isTombstone = false) := by
  simp only [Operation.writes] at hc
  split_ifs at hc
  · obtain ⟨d, hd, rfl⟩ := List.mem_map.1 hc
    exact ⟨d, hd, rfl, fun _ => d.asDeleteMarker_isTombstone⟩
  · exact ⟨c, hc, rfl, id⟩

/-- A put by writers that the reader does not see. -/
theorem maintained_of_put (hr : h.Reachable) (hrun : h.Running ctx)
    (hp : ∀ c ∈ p.cells, c.isTombstone = false ∧ ¬t.Sees c.timestamp) :
    Maintained h (h.apply (.put p)).state ctx t now := by
  have hcells : ∀ c ∈ Operation.writes (.put p), c.isTombstone = false ∧ ¬t.Sees c.timestamp := by
    intro c hc
    obtain ⟨d, hd, htime, hversion⟩ := Operation.mem_writes_put hc
    rw [htime]
    exact (hp d hd).imp_left hversion
  obtain ⟨s, hs⟩ := hr.open_of_running hrun
  have hstate : (h.apply (.put p)).state =
      { h.activated with store := some (s.write (Operation.writes (.put p))) } := hrun.put_state hs p
  refine ⟨hr.step _, ?_, ?_, ?_⟩
  · exact hrun.apply hr ⟨by simp, by simp⟩
  · rw [hstate]
    rfl
  · intro s' hs'
    cases hs.symm.trans hs'
    refine ⟨s.write (Operation.writes (.put p)), by rw [hstate], fun c => ?_⟩
    apply View.shows_congr
    intro d
    exact View.candidate_write_iff (hr.wellFormed hs) hcells

theorem maintained_of_puts (hr : h.Reachable) (hrun : h.Running ctx) {puts : List Put}
    (hputs : ∀ p ∈ puts, ∀ c ∈ p.cells, c.isTombstone = false ∧ ¬t.Sees c.timestamp) :
    Maintained h (h.run (puts.map .put)) ctx t now := by
  induction puts generalizing h with
  | nil => exact .refl hr hrun
  | cons p puts ih =>
    rw [List.forall_mem_cons] at hputs
    have hfirst : Maintained h (h.apply (.put p)).state ctx t now := maintained_of_put hr hrun hputs.1
    exact hfirst.trans (ih hfirst.reachable hfirst.running hputs.2)

/-- Readers are isolated from the writers that they do not see. Whatever versions and logical
deletes such writers put into a running region, at whatever places, a reader gets from it the
same cells as before, at any clock. -/
theorem reads_ignore_unseen_puts (hr : h.Reachable) (hrun : h.Running ctx) {puts : List Put}
    (hputs : ∀ p ∈ puts, ∀ c ∈ p.cells, c.isTombstone = false ∧ ¬t.Sees c.timestamp) (millis : Int)
    {r : Read} {caller : Option (Cell → Bool)} (hf : r.filter = caller.map .predicate)
    (ht : r.attributes.transaction? h.processor.codec = .ok (some t)) :
    ∃ out, (read { h with clock := millis } r).result = .ok out ∧
      (read { h.run (puts.map .put) with clock := millis } r).result = .ok out := by
  obtain ⟨s, hs⟩ := hr.open_of_running hrun
  have hkept : Maintained h (h.run (puts.map .put)) ctx t (Tick.ofClock millis) :=
    maintained_of_puts hr hrun hputs
  obtain ⟨s', hs', hshows⟩ := hkept.shows s hs
  have hsame := Running.read_congr (hr.setClock millis) (hkept.reachable.setClock millis)
    (hrun.setClock millis) (hkept.running.setClock millis) hs hs' hkept.codec rfl hshows hf ht
  obtain ⟨out, hout, -⟩ := (hrun.setClock millis).read_shows (hr.setClock millis) hs hf ht
  exact ⟨out, hout, hsame.trans hout⟩

/-- A logical delete by a sibling, and versions of a later writer and of a dead one. -/
def unseenPuts : List Put :=
  [Put.asDelete { row := [1], cells := [⟨⟨[1], [2], [3]⟩, 12, [8], []⟩] },
    { row := [1], cells := [⟨⟨[1], [2], [3]⟩, 17, [9], []⟩, ⟨⟨[1], [2], [4]⟩, 3, [6], []⟩] }]

theorem reads_ignore_unseen_puts_written :
    ∃ out, (read { written with clock := 3 } (.allFor .messagePack (.ofLists 20 15 [12] [3]))).result =
        .ok out ∧
      (read { written.run (unseenPuts.map .put) with clock := 3 }
        (.allFor .messagePack (.ofLists 20 15 [12] [3]))).result = .ok out := by
  have hrun : written.Running ⟨written.region, {}, ()⟩ := ⟨rfl, .inr rfl, rfl⟩
  have hf : (Read.allFor .messagePack (.ofLists 20 15 [12] [3])).filter =
      (none : Option (Cell → Bool)).map Filter.predicate := rfl
  have hunseen : ∀ p ∈ unseenPuts, ∀ c ∈ p.cells,
      c.isTombstone = false ∧ ¬(Transaction.ofLists 20 15 [12] [3]).Sees c.timestamp := by
    simp only [unseenPuts, Put.asDelete, Transaction.Sees]
    decide
  exact reads_ignore_unseen_puts ((blank_reachable _).run _) hrun hunseen 3 hf
    (Read.allFor_transaction rfl)

end Host

end CellStore
