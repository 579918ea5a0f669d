import CellStore.Proofs.Limits
import CellStore.Proofs.Reading

/-! # Plain reads

A read without a transaction, or of a region without a processor, is answered from the store
as it is. It shows the live versions, whoever wrote them: those that are stored and that no
tombstone masks. A limit on the versions of a column, as long as the caller's filter looks at
each cell by itself, only leaves some of them out.
-/
namespace CellStore

/-- A version that is stored and not masked. -/
structure Store.Live (s : Store) (c : Cell) : Prop where
  stored : c ∈ s.contents
  version : c.isTombstone = false
  unmasked : ¬c.Masked s.contents

variable {caller : Option (Cell → Bool)}

/-- The predicate of a caller by itself. -/
def Layering.predicate (caller : Option (Cell → Bool)) : Layering (Option Filter) where
  Holds f _ := f = caller.map .predicate
  bypass c := some (caller.all (· c))
  wanted _ := true
  step_bypass {f v c b} hf hb := by
    cases hf
    cases hb
    exact ⟨_, rfl, Filter.step_predicate caller c⟩
  step_asks _ h := by cases h
  bypass_older h := by cases h

namespace Store

section

variable {r : Read} (hf : r.filter = caller.map .predicate)
include hf

/-- A plain read of all versions gives the covered and wanted live versions of its time range. -/
theorem read_live (s : Store) (hall : r.versions = .all) :
    ∃ out, (s.read r.plan).1 = .ok out ∧ Run.Ordered out ∧ ∀ c, c ∈ out ↔
      Read.covers r.rows r.families c = true ∧ caller.all (· c) = true ∧
        r.timeRange.contains c.timestamp = true ∧ s.Live c := by
  have hcells := s.ordered_covered r.plan
  -- No visibility is asked, so it does not matter which.
  obtain ⟨out, f', hrun, hout⟩ := (Layering.predicate caller).run_keeps r.plan.sweep
    ⟨⟨0, 0, .empty, .empty⟩, {}, 0⟩ .userScan hall hcells (f := r.plan.filter) hf
  have hread : (s.read r.plan).1 = .ok out := congrArg Prod.fst hrun
  refine ⟨out, hread, hcells.sublist (Sweep.run_sublist hread), fun c => ?_⟩
  have hmasked (hcov : Read.covers r.rows r.families c = true) :
      c.Masked (s.contents.filter r.plan.covers) ↔ c.Masked s.contents :=
    View.masked_filter_covers hcov
  have hcovers : r.plan.covers c = Read.covers r.rows r.families c := rfl
  have hrange : r.plan.sweep.timeRange = r.timeRange := rfl
  have happ : r.plan.sweep.appliesTombstones = true := rfl
  rw [hout, List.mem_filter, hcovers]
  simp only [Layering.Keeps, Layering.predicate, Sweep.Offers, List.mem_filter, hcovers, hrange, happ,
    Bool.true_eq_false, false_and, false_or, Option.some.injEq, reduceCtorEq, or_false, true_implies]
  constructor
  · rintro ⟨⟨hc, hcov⟩, ⟨-, hversion, hunmasked, hcontains⟩, hwanted⟩
    exact ⟨hcov, hwanted, hcontains, hc, hversion, fun hm => hunmasked ((hmasked hcov).2 hm)⟩
  · rintro ⟨hcov, hwanted, hcontains, hc, hversion, hunmasked⟩
    exact ⟨⟨hc, hcov⟩, ⟨⟨hc, hcov⟩, hversion, fun hm => hunmasked ((hmasked hcov).1 hm), hcontains⟩,
      hwanted⟩

/-- Of what a plain read gives without a limit on the versions of a column, a limit leaves the
newest. -/
theorem read_limited (s : Store) :
    ∃ out all, (s.read r.plan).1 = .ok out ∧
      (s.read { r with versions := .all }.plan).1 = .ok all ∧
      ∀ c, c ∈ out ↔ c ∈ all ∧ r.versions.allows (c.newerIn all) = true := by
  obtain ⟨out, all, hout, hall, hlimits⟩ :=
    r.plan.sweep.run_limited rfl caller (s.ordered_covered r.plan) (Cursor.start_ahead _) 0
  rw [← hf] at hout hall
  refine ⟨out, all, congrArg Prod.fst hout, congrArg Prod.fst hall, fun c => (hlimits c).trans ?_⟩
  have hfresh : (({} : Cursor).enter c).taken = 0 := rfl
  rw [hfresh, Nat.zero_add]
  rfl

/-- A plain read gives the newest of the covered and wanted live versions of its time range. -/
theorem read_newest_live (s : Store) :
    ∃ out all, (s.read r.plan).1 = .ok out ∧
      (s.read { r with versions := .all }.plan).1 = .ok all ∧ Run.Ordered all ∧
      (∀ c, c ∈ out ↔ c ∈ all ∧ r.versions.allows (c.newerIn all) = true) ∧
      ∀ c, c ∈ all ↔ Read.covers r.rows r.families c = true ∧ caller.all (· c) = true ∧
        r.timeRange.contains c.timestamp = true ∧ s.Live c := by
  obtain ⟨out, all, hout, hall, hlimited⟩ := s.read_limited hf
  obtain ⟨all', hall', hord, hmem⟩ := s.read_live (r := { r with versions := .all }) hf rfl
  cases hall.symm.trans hall'
  exact ⟨out, all, hout, hall, hord, hlimited, hmem⟩

end

/-- A read looks at nothing but the live versions: whatever its plan and its filter, it is the
same of two stores that have the same. -/
theorem read_congr {s s' : Store} (h : ∀ c, s.Live c ↔ s'.Live c) (p : Plan) :
    s.read p = s'.read p := by
  classical
  have hlive (s : Store) : s.read p =
      p.sweep.run {} p.filter ((s.contents.filter p.covers).filter fun c => decide (s.Live c)) := by
    refine p.sweep.run_live rfl _ (s.ordered_covered p) _ (Cursor.start_ahead _)
      (Cursor.forgets_self {} _) fun c hc => ?_
    obtain ⟨hmem, hcov⟩ := List.mem_filter.1 hc
    have hmasked : c.Masked (s.contents.filter p.covers) ↔ c.Masked s.contents :=
      View.masked_filter_covers hcov
    have hfresh : (({} : Cursor).enter c).isMasked c.timestamp = false := rfl
    rw [decide_eq_true_iff, Cursor.Masks, hfresh, hmasked]
    simp only [Bool.false_eq_true, false_or]
    exact ⟨fun h => ⟨h.version, h.unmasked⟩, fun h => ⟨hmem, h.1, h.2⟩⟩
  rw [hlive s, hlive s']
  congr 1
  refine Run.Ordered.ext ((s.ordered_covered p).sublist List.filter_sublist)
    ((s'.ordered_covered p).sublist List.filter_sublist) fun c => ?_
  simp only [List.mem_filter, decide_eq_true_iff, h c]
  constructor
  · rintro ⟨⟨-, hcov⟩, hc⟩
    exact ⟨⟨hc.stored, hcov⟩, hc⟩
  · rintro ⟨⟨-, hcov⟩, hc⟩
    exact ⟨⟨((h c).2 hc).stored, hcov⟩, hc⟩

/-- A plain read of all versions of a row gives a live version once, and no other at its place. -/
theorem read_place (s : Store) {c : Cell} (hc : s.Live c) :
    ∃ out, (s.read (Read.plan { rows := .one c.column.row, versions := .all })).1 = .ok out ∧
      out.filter (fun d => d.column = c.column ∧ d.timestamp = c.timestamp) = [c] := by
  have hf : Read.filter { rows := .one c.column.row, versions := .all } =
      (none : Option (Cell → Bool)).map .predicate := rfl
  obtain ⟨out, hread, hord, hout⟩ := s.read_live hf rfl
  refine ⟨out, hread, (hord.sublist List.filter_sublist).ext (by simp [Run.Ordered]) fun d => ?_⟩
  have hcov : Read.covers (.one c.column.row) [] c = true := Read.covers_iff.2 ⟨rfl, .inl rfl⟩
  rw [List.mem_filter, decide_eq_true_iff, List.mem_singleton, hout]
  constructor
  · rintro ⟨⟨-, -, -, hlive⟩, hcol, htime⟩
    apply (Run.ordered_merge s.sources).eq_of_key_eq hlive.stored hc.stored
    rw [Cell.key, Cell.key, hcol, htime, hlive.version, hc.version]
  · rintro rfl
    exact ⟨⟨hcov, rfl, TimeRange.all_contains _, hc⟩, rfl, rfl⟩

end Store

namespace Host

variable {σ : Type}

/-- A read that is answered from the store as it is. -/
def Plain (h : Host σ) (r : Read) : Prop :=
  h.observed = false ∨
    (∃ ctx, h.Running ctx) ∧ r.attributes.get? Attributes.transactionKey = none

theorem Plain.read_result {h : Host σ} {s : Store} {r : Read} (hp : h.Plain r)
    (hs : h.store = some s) : (h.read r).result = (s.read r.plan).1 := by
  have hplan : (h.ask r.plan (·.planRead h.now r)).result = .ok r.plan := by
    rcases hp with hunobserved | ⟨⟨ctx, hrun⟩, hattr⟩
    · simp [ask, hunobserved]
    · rw [hrun.ask_result, Processor.planRead, (Processor.serve_of_serves hrun.serves _ _).1]
      simp only [Attributes.transaction?, hattr]
  simp only [read, readWith, hs]
  rw [hplan]

end Host

end CellStore
