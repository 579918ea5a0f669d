import CellStore.Snapshot

/-! # Transactions

A transaction is the view of one reader: its own id, the largest id it may see,
the siblings it must not see and the writers it takes for dead. Flushes and
compactions read as a synthetic transaction that stands at the settled bound.
-/
namespace CellStore

structure Transaction where
  id : TxId
  upperBound : TxId
  excluded : IdSet
  invalid : IdSet
deriving DecidableEq, Repr

namespace Transaction

/-- A transaction from id lists in any order and with any repeats. -/
def ofLists (id upperBound : TxId) (excluded invalid : List TxId) : Transaction :=
  ⟨id, upperBound, IdSet.ofList excluded, IdSet.ofList invalid⟩

/-- The transaction `id` that starts from a snapshot: it sees up to the read pointer and excludes
whatever was still running. -/
def start (id : TxId) (s : Snapshot) : Transaction :=
  ⟨id, s.readPointer, s.inProgress, s.invalid⟩

/-- The synthetic reader at the settled bound of a snapshot. -/
def boundary (s : Snapshot) : Transaction :=
  ⟨TxId.synthetic, s.upperBound, IdSet.empty, s.invalid⟩

def isSynthetic (t : Transaction) : Bool := t.id == TxId.synthetic

def isExcluded (t : Transaction) (id : TxId) : Bool := t.excluded.contains id

def isInvalid (t : Transaction) (id : TxId) : Bool := t.invalid.contains id

/-- The largest timestamp the transaction can be shown, its own writes included. -/
def maxVisible (t : Transaction) : TxId :=
  if t.isSynthetic then t.upperBound else max t.id t.upperBound

end Transaction

end CellStore
