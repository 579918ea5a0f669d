import CellStore.Visibility

/-! # Retention

Flushes and compactions throw data away for good, so they follow the settled
bound of a snapshot. Above it a writer may still commit: what it wrote is kept
unless the writer is dead. At or below it an inner filter decides, in general the
visibility of the synthetic reader at the bound.
-/
namespace CellStore

/-- The bound, the dead writers, and counts of what was decided above the bound. -/
structure Gate where
  boundary : TxId
  invalid : IdSet
  retainedUnsettled : Nat := 0
  droppedInvalid : Nat := 0
deriving DecidableEq, Repr

namespace Gate

/-- The gate at a bound, with the dead writers listed in any order and with any repeats. -/
def ofList (boundary : TxId) (invalid : List TxId) : Gate := { boundary, invalid := .ofList invalid }

/-- The decision on a cell above the bound; `none` for a settled one. -/
def rule (g : Gate) (c : Cell) : Option (Decision × Gate) :=
  if g.boundary < c.timestamp then
    if g.invalid.contains c.timestamp then
      some (.skip, { g with droppedInvalid := g.droppedInvalid + 1 })
    else some (.accept, { g with retainedUnsettled := g.retainedUnsettled + 1 })
  else none

end Gate

/-- A gate in front of a filter. -/
structure Retention (φ : Type) where
  gate : Gate
  inner : φ

namespace Retention

def step {φ : Type} [CellFilter φ] (r : Retention φ) (c : Cell) : Verdict × Retention φ :=
  match r.gate.rule c with
  | some (d, gate) => (.ok d, { r with gate })
  | none => ((CellFilter.step r.inner c).1, { r with inner := (CellFilter.step r.inner c).2 })

instance {φ : Type} [CellFilter φ] : CellFilter (Retention φ) := ⟨step⟩

/-- The filter with which a snapshot guards a flush or compaction. -/
def ofSnapshot (s : Snapshot) (ttl : TtlTable) (purpose : Purpose) (now : TxId) : Retention Visibility :=
  ⟨⟨s.upperBound, s.invalid, 0, 0⟩, { view := ⟨Transaction.boundary s, ttl, now⟩, purpose }⟩

end Retention

end CellStore
