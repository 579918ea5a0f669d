import CellStore.CellFilter
import CellStore.Request

/-! # Sweeps

Reads, flushes and compactions go through a run of cells in the same way. A sweep
follows the columns; tombstones mask the versions at or below them, or are carried along
untouched; what is left is cut by time range and version count and judged by a
filter, whose hint lets it leave a column early.
-/
namespace CellStore

/-- How a run is gone through. -/
structure Sweep where
  /-- Whether tombstones mask versions and vanish, or are kept and mask nothing. -/
  appliesTombstones : Bool
  timeRange : TimeRange := .all
  versions : Versions := .all
deriving DecidableEq, Repr

/-- Where a sweep stands: its column, the versions taken from it, the newest tombstone in it, and
whether the rest of it is skipped. -/
structure Cursor where
  column : Option Column := none
  taken : Nat := 0
  maskedAt : Option TxId := none
  skipping : Bool := false
deriving DecidableEq, Repr

namespace Cursor

/-- Go on to a cell; a new column starts afresh. -/
def enter (k : Cursor) (c : Cell) : Cursor :=
  if k.column = some c.column then k else { column := some c.column }

def mask (k : Cursor) (t : TxId) : Cursor :=
  { k with maskedAt := some (match k.maskedAt with | some m => max m t | none => t) }

def isMasked (k : Cursor) (t : TxId) : Bool := k.maskedAt.any (t ≤ ·)

def take (k : Cursor) : Cursor := { k with taken := k.taken + 1 }

def skipColumn (k : Cursor) : Cursor := { k with skipping := true }

end Cursor

namespace Sweep

/-- Whether a version is left to the filter to judge. -/
def admits (s : Sweep) (k : Cursor) (c : Cell) : Bool :=
  !k.skipping && !k.isMasked c.timestamp && s.timeRange.contains c.timestamp && s.versions.allows k.taken

/-- Put a cell in front of what a sweep gives. -/
def keep {φ : Type} (c : Cell) (r : Except Error (List Cell) × φ) : Except Error (List Cell) × φ :=
  (r.1.map (c :: ·), r.2)

/-- The cells that a sweep keeps and the filter after it. An error of the filter ends the sweep. -/
def run {φ : Type} [CellFilter φ] (s : Sweep) : Cursor → φ → List Cell → Except Error (List Cell) × φ
  | _, f, [] => (.ok [], f)
  | k, f, c :: cs =>
    let k := k.enter c
    if c.isTombstone then
      if s.appliesTombstones then run s (k.mask c.timestamp) f cs
      else keep c (run s k f cs)
    else if s.admits k c then
      match CellFilter.step f c with
      | (.error e, f) => (.error e, f)
      | (.ok .accept, f) => keep c (run s k.take f cs)
      | (.ok .skip, f) => run s k f cs
      | (.ok .skipColumn, f) => run s k.skipColumn f cs
    else run s k f cs

end Sweep

end CellStore
