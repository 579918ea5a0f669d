import CellStore.Bytes
import CellStore.Tick

/-! # Cells

A cell is one version of one column. The row, family and qualifier name the
column, the timestamp is the id of the transaction that wrote the version, and
tags annotate it: one kind of tag makes the cell a transactional delete marker,
another makes it the store's own tombstone.
-/
namespace CellStore

/-- A column: all cells with the same row, family and qualifier are its versions. -/
structure Column where
  row : Bytes
  family : Bytes
  qualifier : Bytes
deriving DecidableEq, Repr, Inhabited

/-- Columns are ordered by row, then family, then qualifier. -/
instance : Ord Column :=
  ⟨compareLex (compareOn Column.row) (compareLex (compareOn Column.family) (compareOn Column.qualifier))⟩

structure Tag where
  kind : UInt8
  value : Bytes
deriving DecidableEq, Repr

namespace Tag

def deleteKind : UInt8 := 99

def tombstoneKind : UInt8 := 8

def deleteMarker : Tag := ⟨deleteKind, [1]⟩

def tombstone : Tag := ⟨tombstoneKind, []⟩

end Tag

structure Cell where
  column : Column
  timestamp : TxId
  value : Bytes := []
  tags : List Tag := []
deriving DecidableEq, Repr

/-- Where a cell stands in a store. A store holds at most one cell for a key. -/
structure Key where
  column : Column
  timestamp : TxId
  tombstone : Bool
deriving DecidableEq, Repr

/-- Columns ascend, the timestamps within one descend, and a tombstone comes before the
version it shares column and timestamp with. -/
instance : Ord Key :=
  ⟨compareLex (compareOn Key.column) (compareLex (fun a b => compare b.timestamp a.timestamp)
    (fun a b => compare b.tombstone a.tombstone))⟩

namespace Cell

/-- Whether the cell records a transactional delete. -/
def isDeleteMarker (c : Cell) : Bool := c.tags.any (·.kind == Tag.deleteKind)

/-- Whether the cell is the store's own delete. -/
def isTombstone (c : Cell) : Bool := c.tags.any (·.kind == Tag.tombstoneKind)

/-- The same version with the delete marker as its only tag. -/
def asDeleteMarker (c : Cell) : Cell := { c with tags := [Tag.deleteMarker] }

def key (c : Cell) : Key := ⟨c.column, c.timestamp, c.isTombstone⟩

/-- The order in which a store delivers versions: columns ascend, timestamps descend. -/
def storeOrder (a b : Cell) : Ordering :=
  (compare a.column b.column).then (compare b.timestamp a.timestamp)

@[simp] theorem asDeleteMarker_isTombstone (c : Cell) : c.asDeleteMarker.isTombstone = false := rfl

@[simp] theorem asDeleteMarker_key (c : Cell) :
    c.asDeleteMarker.key = ⟨c.column, c.timestamp, false⟩ := rfl

end Cell

/-! ## Laws of the orders -/

instance : Std.TransOrd Column :=
  inferInstanceAs (Std.TransCmp (compareLex (compareOn Column.row)
    (compareLex (compareOn Column.family) (compareOn Column.qualifier))))

instance : Std.LawfulEqOrd Column where
  eq_of_compare {a b} h := by
    have h' : compareLex (compareOn Column.row)
      (compareLex (compareOn Column.family) (compareOn Column.qualifier)) a b = .eq := h
    simp only [compareLex, compareOn, Ordering.then_eq_eq, Std.LawfulEqOrd.compare_eq_iff_eq] at h'
    obtain ⟨hr, hf, hq⟩ := h'
    cases a; cases b; simp_all

instance : Std.TransOrd Key :=
  have : Std.TransCmp (fun a b : Key => compare b.timestamp a.timestamp) :=
    inferInstanceAs (Std.TransCmp fun a b : Key => compareOn Key.timestamp b a)
  have : Std.TransCmp (fun a b : Key => compare b.tombstone a.tombstone) :=
    inferInstanceAs (Std.TransCmp fun a b : Key => compareOn Key.tombstone b a)
  inferInstanceAs (Std.TransCmp (compareLex (compareOn Key.column)
    (compareLex (fun a b => compare b.timestamp a.timestamp) (fun a b => compare b.tombstone a.tombstone))))

instance : Std.LawfulEqOrd Key where
  eq_of_compare {a b} h := by
    have h' : compareLex (compareOn Key.column)
      (compareLex (fun a b : Key => compare b.timestamp a.timestamp)
        (fun a b => compare b.tombstone a.tombstone)) a b = .eq := h
    simp only [compareLex, compareOn, Ordering.then_eq_eq, Std.LawfulEqOrd.compare_eq_iff_eq] at h'
    obtain ⟨hc, ht, hm⟩ := h'
    cases a; cases b; simp_all

end CellStore
