import CellStore.Request
import CellStore.Sweep

/-! # Plans

A plan is what a store carries out for a read: the read itself, or the read of a
transaction, which takes every version it may see and judges it by the
visibility of the transaction before the caller's own filter.
-/
namespace CellStore

structure Plan where
  rows : Rows
  families : List Bytes
  timeRange : TimeRange
  versions : Versions
  visibility : Option Visibility
  caller : Option Filter

/-- The plan that leaves a read as it is. -/
def Read.plan (r : Read) : Plan := ⟨r.rows, r.families, r.timeRange, r.versions, none, r.filter⟩

/-- The plan of a read for a transaction. -/
def Read.planFor (r : Read) (v : View) : Plan :=
  { r.plan with
    timeRange := ⟨v.ttl.oldestVisible v.now, v.reader.maxVisible⟩
    versions := .all
    visibility := some { view := v, purpose := .userScan } }

namespace Plan

def covers (p : Plan) (c : Cell) : Bool := Read.covers p.rows p.families c

/-- The filter that judges the cells. -/
def filter (p : Plan) : Option Filter :=
  match p.visibility with
  | none => p.caller
  | some v => some ((Filter.visibility v).combine p.caller)

/-- The caller's part of the filter once cells are judged. -/
def callerPart (p : Plan) (after : Option Filter) : Option Filter :=
  match p.visibility, after with
  | none, f => f
  | some _, some (.chain [_, caller]) => some caller
  | some _, _ => none

def sweep (p : Plan) : Sweep := ⟨true, p.timeRange, p.versions⟩

/-- The cells that a run shows, and the filter after it. -/
def run (p : Plan) (cells : List Cell) : Except Error (List Cell) × Option Filter :=
  p.sweep.run {} p.filter (cells.filter p.covers)

end Plan

end CellStore
