import CellStore.Error
import CellStore.Text.Utf8

/-! # Events

What the library reports while it works. An event is a cause with its data; its
level, its message and its named fields are read off it.
-/
namespace CellStore

inductive Level where
  | debug
  | info
  | warn
deriving DecidableEq, Repr

namespace Level

def name : Level → String
  | debug => "debug"
  | info => "info"
  | warn => "warn"

end Level

/-- The value of an event's field. -/
inductive FieldValue where
  | number (n : Nat)
  | text (s : String)
deriving DecidableEq, Repr

/-- What a filter did over one flush or compaction. -/
structure ScanSummary where
  action : String
  purpose : String
  boundary : TxId
  included : Nat
  skipped : Nat
  invalid : Nat
  expired : Nat
  purged : Nat
  shadowed : Nat
  retainedUnsettled : Nat
  droppedInvalid : Nat
deriving DecidableEq, Repr

inductive Event where
  | familyTtl (family : Bytes) (millis : Nat)
  | invalidTtl (family : Bytes) (value : String)
  | snapshotRegressed (current offered : TxId)
  | snapshotRefreshed (bound : TxId)
  | refreshFailed (error : Error)
  | processorStarted (region : String) (families : Nat)
  | processorActive (region : String)
  | processorStopped (region : String)
  | readRejected (region : String) (error : Error)
  | scannedUnfiltered (region : String) (action : String)
  | deleteMarked (region : String) (row : Bytes) (families cells : Nat)
  | scanFinished (summary : ScanSummary)
  | memstoreFlushed (region : String) (cells kept : Nat)
  | filesCompacted (region : String) (kind : String) (cells kept : Nat)
deriving DecidableEq, Repr

namespace Event

def level : Event → Level
  | familyTtl .. | processorStarted .. | processorActive .. | processorStopped .. | deleteMarked .. => .info
  | invalidTtl .. | snapshotRegressed .. | refreshFailed .. | readRejected .. => .warn
  | snapshotRefreshed .. | scannedUnfiltered .. | scanFinished .. | memstoreFlushed .. | filesCompacted .. =>
    .debug

def message : Event → String
  | familyTtl .. => "Family has TTL"
  | invalidTtl .. => "Invalid TTL value configured for column family, using unlimited retention"
  | snapshotRegressed .. => "Ignoring transaction snapshot with regressing visibility upper bound"
  | snapshotRefreshed .. => "Refreshed transaction snapshot"
  | refreshFailed .. => "Failed to refresh transaction snapshot"
  | processorStarted .. => "Transaction processor started"
  | processorActive .. => "Transaction processor active"
  | processorStopped .. => "Transaction processor stopped"
  | readRejected .. => "Rejecting read with undecodable transaction"
  | scannedUnfiltered .. => "No transaction snapshot available, using default scanner"
  | deleteMarked .. => "Rewrote transactional delete into delete markers"
  | scanFinished .. => "Store scan filter finished"
  | memstoreFlushed .. => "Flushed memstore"
  | filesCompacted .. => "Compacted store files"

/-- The fields by name. Names of families and rows are shown as text. -/
def fields : Event → List (String × FieldValue)
  | familyTtl family millis =>
    [("family", .text (Text.Utf8.decodeLossy family)), ("ttl_ms", .number millis)]
  | invalidTtl family value =>
    [("family", .text (Text.Utf8.decodeLossy family)), ("value", .text value)]
  | snapshotRegressed current offered =>
    [("current", .number current.toNat), ("offered", .number offered.toNat)]
  | snapshotRefreshed bound => [("visibility_upper_bound", .number bound.toNat)]
  | refreshFailed error => [("error", .text error.message)]
  | processorStarted region families => [("region", .text region), ("families", .number families)]
  | processorActive region | processorStopped region => [("region", .text region)]
  | readRejected region error => [("region", .text region), ("error", .text error.message)]
  | scannedUnfiltered region action => [("region", .text region), ("action", .text action)]
  | deleteMarked region row families cells =>
    [("region", .text region), ("row", .text (Text.Utf8.decodeLossy row)),
      ("families", .number families), ("cells", .number cells)]
  | scanFinished s =>
    [("action", .text s.action), ("purpose", .text s.purpose), ("boundary", .number s.boundary.toNat),
      ("included", .number s.included), ("skipped", .number s.skipped), ("invalid", .number s.invalid),
      ("expired", .number s.expired), ("purged", .number s.purged), ("shadowed", .number s.shadowed),
      ("retained_unsettled", .number s.retainedUnsettled), ("dropped_invalid", .number s.droppedInvalid)]
  | memstoreFlushed region cells kept =>
    [("region", .text region), ("cells", .number cells), ("kept", .number kept)]
  | filesCompacted region kind cells kept =>
    [("region", .text region), ("kind", .text kind), ("cells", .number cells), ("kept", .number kept)]

end Event

end CellStore
