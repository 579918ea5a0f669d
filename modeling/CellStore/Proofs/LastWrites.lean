import CellStore.Proofs.Histories
import CellStore.Proofs.Purging

/-! # Last writes

A region without a processor loses nothing to flushes and minor compactions. They move
cells from one source to another, and at every key the newest source wins as before. So
the region holds of every key the last cell that was written there, and its reads give
what they would give after the writes alone.
-/
namespace CellStore

namespace Run

variable {r r' written : List Cell} {k : Key} {c : Cell}

/-- A cell is the last of its key among cells written one after the other. -/
def Last (written : List Cell) (c : Cell) : Prop :=
  ∃ before after, written = before ++ c :: after ∧ ∀ d ∈ after, d.key ≠ c.key

theorem lookup_reverse_eq_some_iff :
    lookup k written.reverse = some c ↔ Last written c ∧ c.key = k := by
  rw [lookup, List.find?_eq_some_iff_append, beq_iff_eq]
  constructor
  · rintro ⟨rfl, after, before, hwritten, hafter⟩
    refine ⟨⟨before.reverse, after.reverse, ?_, by simpa using hafter⟩, rfl⟩
    simpa using congrArg List.reverse hwritten
  · rintro ⟨⟨before, after, rfl, hafter⟩, rfl⟩
    exact ⟨rfl, after.reverse, before.reverse, by simp, by simpa using hafter⟩

/-- A run is known by what it holds at each key. -/
theorem Ordered.ext_lookup (h : Ordered r) (h' : Ordered r')
    (hl : ∀ k, lookup k r = lookup k r') : r = r' := by
  apply h.ext h'
  intro c
  have hc := lookup_eq_some_iff (k := c.key) (c := c) h
  rw [hl, lookup_eq_some_iff h'] at hc
  simpa using hc.symm

end Run

namespace Host

variable {σ : Type} {h h' : Host σ} {s : Store} {written : List Cell}

/-- The cells that an operation writes to a region without a processor. -/
def Operation.cells : Operation → List Cell
  | .put p => p.cells
  | .delete column timestamp => [⟨column, timestamp, [], [Tag.tombstone]⟩]
  | _ => []

def Operation.isWrite : Operation → Bool
  | .put _ | .delete _ _ => true
  | _ => false

/-- Whether an operation leaves the region open and applies no tombstones. -/
def Operation.Lossless (op : Operation) : Prop := op ≠ .close ∧ op ≠ .compact .major

theorem Operation.lossless_of_isWrite {op : Operation} (h : op.isWrite = true) : op.Lossless := by
  constructor <;> rintro rfl <;> simp [isWrite] at h

theorem Operation.cells_eq_nil {op : Operation} (h : ¬op.isWrite = true) : op.cells = [] := by
  cases op <;> simp_all [isWrite, cells]

/-- The operations that are not writes write nothing. -/
theorem Operation.flatMap_cells_filter (ops : List Operation) :
    (ops.filter isWrite).flatMap cells = ops.flatMap cells := by
  induction ops with
  | nil => rfl
  | cons op ops ih =>
    by_cases hop : op.isWrite = true
    · simp [hop, ih]
    · simp [hop, ih, cells_eq_nil hop]

/-- An open region without a processor that holds of every key the last cell that was written. -/
structure Holds (h : Host σ) (written : List Cell) : Prop where
  unobserved : h.observed = false
  last : ∃ s, h.store = some s ∧ s.WellFormed ∧
    ∀ k, Run.lookup k s.contents = Run.lookup k written.reverse

theorem Fresh.holds (hfresh : h.Fresh) (hobserved : h.observed = false) :
    h.opening.state.Holds [] := by
  have hopening : h.opening = ⟨.ok (), h, []⟩ := by simp [opening, hobserved]
  rw [hopening]
  exact ⟨hobserved, {}, hfresh.store, ⟨.nil, by simp⟩, fun _ => rfl⟩

/-- The cells written decide what the store holds, wherever it holds it. -/
theorem Holds.contents_eq (hh : h.Holds written) (hh' : h'.Holds written) {s' : Store}
    (hs : h.store = some s) (hs' : h'.store = some s') : s.contents = s'.contents := by
  obtain ⟨t, ht, -, hlast⟩ := hh.last
  obtain ⟨t', ht', -, hlast'⟩ := hh'.last
  cases hs.symm.trans ht
  cases hs'.symm.trans ht'
  exact s.ordered_contents.ext_lookup s'.ordered_contents fun k => (hlast k).trans (hlast' k).symm

variable [SnapshotSource σ]

/-- Without a processor, a flush or minor compaction moves all that it goes through. -/
theorem upkeep_unobserved (hobserved : h.observed = false) (hs : h.store = some s)
    (hw : s.WellFormed) {u : Upkeep} (hu : u ≠ .compact .major) :
    (h.upkeep u).result = .ok () ∧ (h.upkeep u).state.store = some (s.replace (s.part u) u) := by
  obtain ⟨file, hdone, hstore, hremains⟩ := upkeep_unguarded hobserved hs hw u
  -- Nothing guards the cells, so all of them are left.
  have hfile : file = s.part u := by
    apply hremains.ordered.ext (hw.part u)
    intro c
    simp [hremains.mem_iff, Upkeep.leaves_iff_of_ne_major hu]
  rw [← hfile]
  exact ⟨hdone, hstore⟩

/-- Without a processor, an operation writes its cells and does nothing else to the store, or it
flushes or compacts. -/
theorem apply_unobserved (hobserved : h.observed = false) (hs : h.store = some s) {op : Operation}
    (hop : op.Lossless) :
    ((h.apply op).state.observed = false ∧ (h.apply op).state.store = some (s.write op.cells)) ∨
      ∃ u, u ≠ .compact .major ∧ (h.apply op).state = (h.upkeep u).state ∧ op.cells = [] := by
  cases op with
  | put p =>
    exact .inl (by simp [Host.apply, replying, put, onStore, hs, ask, hobserved, Outcome.andThen,
      Operation.cells])
  | delete column timestamp =>
    exact .inl (by simp [Host.apply, replying, delete, onStore, hs, hobserved, Store.delete,
      Operation.cells])
  | read r => exact .inl ⟨by simp [Host.apply, replying, read, readWith, hs, ask, hobserved],
      (h.read_store r).trans hs⟩
  | flush => exact .inr ⟨.flush, by simp, rfl, rfl⟩
  | compact kind =>
    have hkind : Upkeep.compact kind ≠ .compact .major := fun h => hop.2 (by cases h; rfl)
    exact .inr ⟨.compact kind, hkind, rfl, rfl⟩
  | publish snapshot => exact .inl ⟨hobserved, hs⟩
  | setClock millis => exact .inl ⟨hobserved, hs⟩
  | stop => exact .inl ⟨hobserved, hs⟩
  | reopen => exact .inl ⟨hobserved, hs⟩
  | close => exact absurd rfl hop.1

/-- What an operation writes comes after what was written before. -/
theorem Holds.apply (hh : h.Holds written) {op : Operation} (hop : op.Lossless) :
    (h.apply op).state.Holds (written ++ op.cells) := by
  obtain ⟨hobserved, s, hs, hw, hlast⟩ := hh
  rcases apply_unobserved hobserved hs hop with ⟨hobserved', hs'⟩ | ⟨u, hu, hstate, hcells⟩
  · refine ⟨hobserved', _, hs', hw.write op.cells, fun k => ?_⟩
    rw [hw.lookup_write, hlast, List.reverse_append, Run.lookup_append]
  · have hs' := (upkeep_unobserved hobserved hs hw hu).2
    rw [hstate, hcells, List.append_nil]
    refine ⟨(h.upkeep_observed u).trans hobserved, _, hs', hw.replace (hw.part u) u, fun k => ?_⟩
    rw [hw.lookup_replace (hw.part u) fun _ _ => Iff.rfl, hlast]

theorem Holds.run (hh : h.Holds written) {ops : List Operation} (hops : ∀ op ∈ ops, op.Lossless) :
    (h.run ops).Holds (written ++ ops.flatMap Operation.cells) := by
  induction ops generalizing h written with
  | nil => simpa [Host.run] using hh
  | cons op ops ih =>
    rw [List.forall_mem_cons] at hops
    rw [List.flatMap_cons, ← List.append_assoc]
    exact ih (hh.apply hops.1) hops.2

/-- Flushes and minor compactions only reorganise. Whatever is done to a region without a
processor, short of a major compaction, its store holds exactly the last cell written at
every key, and every read gives what it gives after the writes alone. With no filter but a
predicate it does give cells. -/
theorem Fresh.reorganised (hfresh : h.Fresh) (hobserved : h.observed = false)
    {ops : List Operation} (hops : ∀ op ∈ ops, op.Lossless) :
    ∃ s, (h.opening.state.run ops).store = some s ∧ Run.Ordered s.contents ∧
      (∀ c, c ∈ s.contents ↔ Run.Last (ops.flatMap Operation.cells) c) ∧
      (∀ r, ((h.opening.state.run ops).read r).result =
        ((h.opening.state.run (ops.filter Operation.isWrite)).read r).result) ∧
      ∀ (caller : Option (Cell → Bool)) (r : Read), r.filter = caller.map .predicate →
        ∃ out, ((h.opening.state.run ops).read r).result = .ok out := by
  have hwrites : ∀ op ∈ ops.filter Operation.isWrite, op.Lossless := fun op hop =>
    Operation.lossless_of_isWrite (List.mem_filter.1 hop).2
  have hh := (hfresh.holds hobserved).run hops
  have hh' := (hfresh.holds hobserved).run hwrites
  rw [Operation.flatMap_cells_filter] at hh'
  obtain ⟨s, hs, -, hlast⟩ := hh.last
  obtain ⟨s', hs', -, -⟩ := hh'.last
  have hread (r : Read) : ((h.opening.state.run ops).read r).result = (s.read r.plan).1 :=
    Plain.read_result (.inl hh.unobserved) hs
  have hread' (r : Read) :
      ((h.opening.state.run (ops.filter Operation.isWrite)).read r).result = (s'.read r.plan).1 :=
    Plain.read_result (.inl hh'.unobserved) hs'
  refine ⟨s, hs, s.ordered_contents, fun c => ?_, fun r => ?_, fun caller r hf => ?_⟩
  · rw [Store.mem_contents_iff_lookup, hlast, List.nil_append, Run.lookup_reverse_eq_some_iff,
      and_iff_left rfl]
  · rw [hread, hread', Store.read, Store.read, hh.contents_eq hh' hs hs']
  · obtain ⟨out, -, hout, -, -⟩ := s.read_limited hf
    exact ⟨out, (hread r).trans hout⟩

/-- A region without a processor, before it opens. -/
def unwatched : Host SnapshotCache := 
  { table := ⟨"t", []⟩, observed := false, source := {} }

/-- One key written before and after flushes and a compaction, and its place masked in between. -/
def rewrites : List Operation :=
  let column : Column := ⟨[1], [2], [3]⟩
  [.put { row := [1], cells := [⟨column, 5, [7], []⟩, ⟨column, 4, [7], []⟩] }, .flush,
    .put { row := [1], cells := [⟨column, 5, [8], []⟩] }, .flush, .delete column 4, .compact .minor,
    .put { row := [1], cells := [⟨column, 5, [6], []⟩, ⟨column, 5, [9], []⟩] }, .flush]

theorem unwatched_reorganised :
    (unwatched.opening.state.run rewrites).store =
        some ⟨[], [[⟨⟨[1], [2], [3]⟩, 5, [8], []⟩, ⟨⟨[1], [2], [3]⟩, 4, [7], []⟩],
          [⟨⟨[1], [2], [3]⟩, 5, [9], []⟩, ⟨⟨[1], [2], [3]⟩, 4, [], [Tag.tombstone]⟩]]⟩ ∧
      ∃ s, (unwatched.opening.state.run rewrites).store = some s ∧ Run.Ordered s.contents ∧
        (∀ c, c ∈ s.contents ↔ Run.Last (rewrites.flatMap Operation.cells) c) ∧
        (∀ r, ((unwatched.opening.state.run rewrites).read r).result =
          ((unwatched.opening.state.run (rewrites.filter Operation.isWrite)).read r).result) ∧
        ∀ (caller : Option (Cell → Bool)) (r : Read), r.filter = caller.map .predicate →
          ∃ out, ((unwatched.opening.state.run rewrites).read r).result = .ok out :=
  ⟨rfl, Fresh.reorganised ⟨rfl, rfl, rfl⟩ rfl (by simp [rewrites, Operation.Lossless])⟩

end Host

end CellStore
