import CellStore.Retention

/-! # Composed filters

Filters are built from visibility, retention, predicates and filters given by a
caller, and put together in chains. Every member of a chain judges every cell,
and the strictest decision holds; the first error ends the judging of its cell.
-/
namespace CellStore

inductive Filter where
  | visibility (v : Visibility)
  | retention (gate : Gate) (inner : Filter)
  | chain (members : List Filter)
  | predicate (keep : Cell → Bool)
  /-- A filter known only by its answers: `respond seen c` answers `c` after the cells `seen`, the
  last one first. -/
  | custom (respond : List Cell → Cell → Verdict) (seen : List Cell)

namespace Filter

mutual

/-- Judge a cell. -/
def step : Filter → Cell → Verdict × Filter
  | visibility v, c => ((v.step c).1, visibility (v.step c).2)
  | retention gate inner, c =>
    match gate.rule c with
    | some (d, gate) => (.ok d, retention gate inner)
    | none => ((step inner c).1, retention gate (step inner c).2)
  | chain members, c => ((stepAll members c).1, chain (stepAll members c).2)
  | predicate keep, c => (.ok (if keep c then .accept else .skip), predicate keep)
  | custom respond seen, c => (respond seen c, custom respond (c :: seen))

/-- Judge a cell by every filter in turn, up to the first error. -/
def stepAll : List Filter → Cell → Verdict × List Filter
  | [], _ => (.ok .accept, [])
  | f :: fs, c =>
    match step f c with
    | (.error e, f) => (.error e, f :: fs)
    | (.ok d, f) => ((stepAll fs c).1.map d.strictest, f :: (stepAll fs c).2)

end

instance : CellFilter Filter := ⟨step⟩

/-- A filter and the caller's filter behind it, if there is one. -/
def combine (first : Filter) : Option Filter → Filter
  | none => first
  | some second => chain [first, second]

end Filter

end CellStore
