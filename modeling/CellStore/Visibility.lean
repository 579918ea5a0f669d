import CellStore.CellFilter
import CellStore.Purpose
import CellStore.Transaction
import CellStore.Ttl

/-! # Visibility

A reader passes a version that it wrote itself, and otherwise one that is not
excluded, not above its bound, not invalid and not expired. The filter follows
the columns of a scan: a passing delete marker hides the older versions of its
column, and a read shows the newest passing version and its own writes.
-/
namespace CellStore

/-- What a reader sees at a moment. -/
structure View where
  reader : Transaction
  ttl : TtlTable
  now : TxId
deriving DecidableEq, Repr

/-- Why a version does not pass. -/
inductive Obstacle where
  | excluded
  | future
  | invalid
  | expired
deriving DecidableEq, Repr

namespace View

/-- The cutoff of a family at the moment of the view. -/
def cutoff (v : View) (family : Bytes) : Option TxId := v.ttl.cutoff family v.now

/-- The first reason for which a version does not pass, given the cutoff of its family. A transaction
always sees its own writes. -/
def obstacle? (v : View) (cutoff : Option TxId) (c : Cell) : Option Obstacle :=
  if c.timestamp = v.reader.id then none
  else if v.reader.isExcluded c.timestamp then some .excluded
  else if v.reader.upperBound < c.timestamp then some .future
  else if v.reader.isInvalid c.timestamp then some .invalid
  else if cutoff.any (c.timestamp < ·) then some .expired
  else none

end View

/-- What a filter finds a version to be. -/
inductive Finding where
  /-- Older than a delete marker that passed. -/
  | shadowed
  | hidden (o : Obstacle)
  /-- A passing delete marker. -/
  | marker
  /-- The reader's own write, or the first passing version of its column. -/
  | newest
  /-- A passing version behind another one. -/
  | older
deriving DecidableEq, Repr

/-- Counts over one scan. -/
structure Stats where
  included : Nat := 0
  skipped : Nat := 0
  excluded : Nat := 0
  future : Nat := 0
  invalid : Nat := 0
  expired : Nat := 0
  /-- Expired versions that a purging scan drops. -/
  purgeEligible : Nat := 0
  shadowed : Nat := 0
  deleteMarkers : Nat := 0
deriving DecidableEq, Repr

namespace Stats

/-- Count what a version was found to be. -/
def note (s : Stats) (p : Purpose) : Finding → Stats
  | .shadowed => { s with shadowed := s.shadowed + 1 }
  | .hidden .excluded => { s with excluded := s.excluded + 1 }
  | .hidden .future => { s with future := s.future + 1 }
  | .hidden .invalid => { s with invalid := s.invalid + 1 }
  | .hidden .expired =>
    { s with expired := s.expired + 1, purgeEligible := s.purgeEligible + if p.purges then 1 else 0 }
  | .marker => { s with deleteMarkers := s.deleteMarkers + 1 }
  | .newest | .older => s

/-- Count a decision. -/
def count (s : Stats) : Decision → Stats
  | .accept => { s with included := s.included + 1 }
  | .skip | .skipColumn => { s with skipped := s.skipped + 1 }

end Stats

/-- Where the filter of a view stands in the scan: the column, the timestamp of the last cell, whether
a version of the column has passed, the newest delete marker that did, and the cutoff of the family,
which is looked up when the scan comes to the family and kept until it leaves it. -/
structure Place (v : View) where
  column : Column
  previous : TxId
  satisfied : Bool := false
  deletedAt : Option TxId := none
  cutoff : Option TxId
  cutoff_eq : cutoff = v.cutoff column.family
deriving DecidableEq, Repr

namespace Place

variable {v : View}

def timestampIncreased : String := "timestamp increased within column"

def columnRegressed : String := "column sorts before the previous column"

/-- The place at the first cell of a family. -/
def first (v : View) (c : Cell) : Place v where
  column := c.column
  previous := c.timestamp
  cutoff := v.cutoff c.column.family
  cutoff_eq := rfl

/-- The place at the first cell of another column. The cutoff stays where the family does. -/
def next (p : Place v) (c : Cell) : Place v :=
  if h : p.column.family = c.column.family then
    { column := c.column, previous := c.timestamp, cutoff := p.cutoff, cutoff_eq := h ▸ p.cutoff_eq }
  else first v c

/-- The cutoff that is kept is the one that would be found. -/
theorem next_eq_first (p : Place v) (c : Cell) : p.next c = first v c := by
  unfold next
  split
  · rename_i h
    simp only [first, p.cutoff_eq, h]
  · rfl

/-- Go on to a cell, which must not come before the last one in store order. -/
def enter : Option (Place v) → Cell → Except Error (Place v)
  | none, c => .ok (first v c)
  | some p, c =>
    match compare p.column c.column with
    | .lt => .ok (p.next c)
    | .eq =>
      if c.timestamp ≤ p.previous then .ok { p with previous := c.timestamp }
      else .error (.outOfOrder c.timestamp p.previous timestampIncreased)
    | .gt => .error (.outOfOrder c.timestamp p.previous columnRegressed)

theorem enter_of_lt {p : Place v} {c : Cell} (h : compare p.column c.column = .lt) :
    enter (some p) c = .ok (first v c) := by
  simp only [enter, h, next_eq_first]

/-- What a cell at this place is found to be. -/
def find (p : Place v) (c : Cell) : Finding :=
  if p.deletedAt.any (c.timestamp < ·) then .shadowed
  else match v.obstacle? p.cutoff c with
    | some o => .hidden o
    | none =>
      if c.isDeleteMarker then .marker
      else if c.timestamp = v.reader.id || !p.satisfied then .newest
      else .older

/-- The place once a cell is judged. -/
def after (p : Place v) (c : Cell) : Finding → Place v
  | .shadowed | .hidden _ | .older => p
  | .marker => { p with satisfied := true, deletedAt := some c.timestamp }
  | .newest => { p with satisfied := true }

end Place

/-- The visibility filter of one scan. -/
structure Visibility where
  view : View
  purpose : Purpose
  place : Option (Place view) := none
  stats : Stats := {}
deriving DecidableEq, Repr

namespace Visibility

/-- What is done with a version. A read that has its answer leaves the column, unless its own write
may still follow. -/
def decide (f : Visibility) (c : Cell) : Finding → Decision
  | .shadowed => .skipColumn
  | .hidden _ => .skip
  | .marker => if f.purpose.retainsDeleteMarkers then .accept else .skipColumn
  | .newest => .accept
  | .older =>
    if f.purpose.retainsVersions then .accept
    else if f.view.reader.id < c.timestamp then .skip
    else .skipColumn

/-- Judge a cell. A cell out of order is refused and leaves the filter as it was. -/
def step (f : Visibility) (c : Cell) : Verdict × Visibility :=
  match Place.enter f.place c with
  | .error e => (.error e, f)
  | .ok p =>
    let found := p.find c
    let decision := f.decide c found
    (.ok decision, { f with
      place := some (p.after c found)
      stats := (f.stats.note f.purpose found).count decision })

instance : CellFilter Visibility := ⟨step⟩

theorem step_of_enter {f : Visibility} {c : Cell} {p : Place f.view}
    (h : Place.enter f.place c = .ok p) :
    f.step c = (.ok (f.decide c (p.find c)), { f with
      place := some (p.after c (p.find c))
      stats := (f.stats.note f.purpose (p.find c)).count (f.decide c (p.find c)) }) := by
  simp only [step, h]

theorem step_of_enter_error {f : Visibility} {c : Cell} {e : Error}
    (h : Place.enter f.place c = .error e) : f.step c = (.error e, f) := by
  simp only [step, h]

end Visibility

end CellStore
