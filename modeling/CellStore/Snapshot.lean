import CellStore.Error
import CellStore.IdSet

/-! # Transaction snapshots

A snapshot says which ids were dead and which were still running at one moment,
and how far reads may go. The fate of an id is settled once it lies below every
running id, so the settled bound stops just short of the first of them.
-/
namespace CellStore

structure Snapshot where
  readPointer : TxId
  invalid : IdSet
  inProgress : IdSet
  capturedAt : Nat
  disjoint : ∀ id ∈ invalid.ids, id ∉ inProgress
deriving DecidableEq, Repr

namespace Snapshot

/-- An id cannot be dead and running at once. -/
def overlap (id : TxId) : Error :=
  .invalidSnapshot ("transaction " ++ toString id.toNat ++ " is both invalid and in progress")

/-- A snapshot from lists in any order and with any repeats; refused at the smallest id that is
in both of them. -/
def ofLists (readPointer : TxId) (invalid inProgress : List TxId) (capturedAt : Nat) :
    Except Error Snapshot :=
  let dead := IdSet.ofList invalid
  let running := IdSet.ofList inProgress
  match h : dead.ids.find? running.contains with
  | some id => .error (overlap id)
  | none => .ok ⟨readPointer, dead, running, capturedAt, fun id hid hr =>
      List.find?_eq_none.1 h id hid (IdSet.contains_eq_true_iff.2 hr)⟩

/-- The largest id whose fate is settled, for all that the snapshot knows. -/
def upperBound (s : Snapshot) : TxId :=
  match s.inProgress.ids.head? with
  | some first => min first.pred s.readPointer
  | none => s.readPointer

def isInvalid (s : Snapshot) (id : TxId) : Bool := s.invalid.contains id

def isInProgress (s : Snapshot) (id : TxId) : Bool := s.inProgress.contains id

end Snapshot

end CellStore
