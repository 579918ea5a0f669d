/-! # Purposes of a scan

A read answers one transaction. A flush or a minor compaction writes part of the
store anew and keeps delete markers, because older versions may live elsewhere. A
major compaction takes in every store file and may drop the markers with what
they hide.
-/
namespace CellStore

inductive Purpose where
  | userScan
  | retainDeletes
  | dropDeletes
deriving DecidableEq, Repr

namespace Purpose

def name : Purpose → String
  | userScan => "user_scan"
  | retainDeletes => "compact_retain_deletes"
  | dropDeletes => "compact_drop_deletes"

/-- Whether every visible version of a column is kept, not just the newest. -/
def retainsVersions (p : Purpose) : Bool := p != userScan

/-- Whether visible delete markers are written back. -/
def retainsDeleteMarkers (p : Purpose) : Bool := p == retainDeletes

/-- Whether what is skipped is gone for good. -/
def purges (p : Purpose) : Bool := p == dropDeletes

end Purpose

inductive Compaction where
  | minor
  | major
deriving DecidableEq, Repr

namespace Compaction

def purpose : Compaction → Purpose
  | minor => .retainDeletes
  | major => .dropDeletes

def name : Compaction → String
  | minor => "minor_compaction"
  | major => "major_compaction"

end Compaction

/-- The ways in which a store is put in order. -/
inductive Upkeep where
  | flush
  | compact (kind : Compaction)
deriving DecidableEq, Repr

namespace Upkeep

def purpose : Upkeep → Purpose
  | flush => .retainDeletes
  | compact kind => kind.purpose

def name : Upkeep → String
  | flush => "flush"
  | compact kind => kind.name

end Upkeep

end CellStore
