import CellStore.Codec
import CellStore.Filter

/-! # Requests

Clients read rows and put cells, and attach named bytes to either. A transaction
travels in one attribute, and another attribute flags a put as a logical delete.
-/
namespace CellStore

/-- Bytes by name, each name at most once. -/
abbrev Attributes := List (String × Bytes)

namespace Attributes

/-- The attribute that carries a transaction. -/
def transactionKey : String := "txfilter.tx"

/-- The attribute that makes a put a logical delete. -/
def deleteKey : String := "txfilter.tx.delete"

def set (key : String) (value : Bytes) (a : Attributes) : Attributes :=
  (key, value) :: a.filter (·.1 != key)

def get? (key : String) (a : Attributes) : Option Bytes := a.lookup key

/-- Attach a transaction. -/
def attach (codec : Codec) (t : Transaction) (a : Attributes) : Attributes :=
  a.set transactionKey (codec.encode t)

/-- The attached transaction, if there is one. -/
def transaction? (codec : Codec) (a : Attributes) : Except Error (Option Transaction) :=
  match a.get? transactionKey with
  | none => .ok none
  | some bytes => (codec.decode bytes).map some

end Attributes

/-- Timestamps between two ends, both included. -/
structure TimeRange where
  min : TxId
  max : TxId
deriving DecidableEq, Repr

namespace TimeRange

def all : TimeRange := ⟨0, TxId.last⟩

def contains (r : TimeRange) (t : TxId) : Bool := r.min ≤ t && t ≤ r.max

end TimeRange

/-- How many versions of a column are wanted. -/
inductive Versions where
  | atMost (n : Nat)
  | all
deriving DecidableEq, Repr

namespace Versions

/-- As a number, all versions are the largest word. -/
def toNat : Versions → Nat
  | atMost n => n
  | all => UInt64.size - 1

def ofNat (n : Nat) : Versions := if n < UInt64.size - 1 then .atMost n else .all

/-- Whether one more version is wanted after `n` of them. -/
def allows : Versions → Nat → Bool
  | atMost limit, n => n < limit
  | all, _ => true

end Versions

/-- The rows that are read. -/
inductive Rows where
  | one (row : Bytes)
  /-- From the first row on, up to but without the last one if there is one. -/
  | between (start : Bytes) (stop : Option Bytes)
deriving DecidableEq, Repr

namespace Rows

def all : Rows := .between [] none

def contains : Rows → Bytes → Bool
  | one row, r => r == row
  | between start stop, r =>
    (compare r start).isGE && (match stop with
      | some stop => (compare r stop).isLT
      | none => true)

end Rows

/-- A read of some rows: of all families unless some are named, and of the newest version of every
column unless more are asked for. -/
structure Read where
  rows : Rows
  families : List Bytes := []
  timeRange : TimeRange := .all
  versions : Versions := .atMost 1
  filter : Option Filter := none
  attributes : Attributes := []

namespace Read

/-- Whether a cell lies in the rows and families that are read. -/
def covers (rows : Rows) (families : List Bytes) (c : Cell) : Bool :=
  rows.contains c.column.row && (families.isEmpty || families.contains c.column.family)

end Read

/-- Cells to be written to one row. -/
structure Put where
  row : Bytes
  cells : List Cell := []
  attributes : Attributes := []
deriving DecidableEq, Repr

namespace Put

/-- Add a version of a column. -/
def add (p : Put) (family qualifier : Bytes) (timestamp : TxId) (value : Bytes) (tags : List Tag) : Put :=
  { p with cells := p.cells ++ [⟨⟨p.row, family, qualifier⟩, timestamp, value, tags⟩] }

/-- Make the put a logical delete. -/
def asDelete (p : Put) : Put := { p with attributes := p.attributes.set Attributes.deleteKey [1] }

def isDelete (p : Put) : Bool := (p.attributes.get? Attributes.deleteKey).isSome

/-- Put a cell to the others of its family, the families in order. -/
def group (c : Cell) : List (Bytes × List Cell) → List (Bytes × List Cell)
  | [] => [(c.column.family, [c])]
  | (family, cs) :: rest =>
    match compare c.column.family family with
    | .lt => (c.column.family, [c]) :: (family, cs) :: rest
    | .eq => (family, cs ++ [c]) :: rest
    | .gt => (family, cs) :: group c rest

/-- The cells by family. -/
def groups (p : Put) : List (Bytes × List Cell) := p.cells.foldl (fun gs c => group c gs) []

/-- The put with a delete marker in place of every cell. -/
def markers (p : Put) : Put := { p with cells := p.cells.map Cell.asDeleteMarker }

end Put

end CellStore
