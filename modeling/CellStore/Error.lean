import CellStore.Tick

/-! # Errors

What can go wrong, and the text under which it is reported. Only a transaction
that does not decode rejects its own request and nothing else.
-/
namespace CellStore

inductive Error where
  | io (reason : String)
  | decode (reason : String)
  | outOfOrder (timestamp previous : TxId) (reason : String)
  | invalidSnapshot (reason : String)
  | snapshotUnavailable
  | notStarted
  | invalidOperation (reason : String)
  | config (reason : String)
deriving DecidableEq, Repr

namespace Error

def message : Error → String
  | io reason => "I/O error: " ++ reason
  | decode reason => "Transaction decode error: " ++ reason
  | outOfOrder timestamp previous reason =>
    "Out of order cell at timestamp " ++ toString timestamp.toNat ++ " (previous " ++
      toString previous.toNat ++ "): " ++ reason
  | invalidSnapshot reason => "Invalid snapshot: " ++ reason
  | snapshotUnavailable => "No transaction snapshot available"
  | notStarted => "Transaction processor not started"
  | invalidOperation reason => "Invalid operation: " ++ reason
  | config reason => "Configuration error: " ++ reason

/-- Whether the error rejects a single request. -/
def rejectsRequest : Error → Bool
  | decode _ => true
  | _ => false

end Error

end CellStore
