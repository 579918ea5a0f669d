import CellStore.Outcome
import CellStore.Plan
import CellStore.Run
import CellStore.StoreScan

/-! # The store

Writes go to the memstore. A flush turns it into a store file, and a compaction
turns all files into one. Reads see the merge of the memstore and the files, the
newest source first.
-/
namespace CellStore

structure Store where
  memstore : List Cell := []
  /-- The oldest file first. -/
  files : List (List Cell) := []
deriving DecidableEq, Repr

namespace Store

/-- All that is stored. -/
def contents (s : Store) : List Cell := Run.merge (s.memstore :: s.files.reverse)

/-- All that is stored in files. -/
def fileContents (s : Store) : List Cell := Run.merge s.files.reverse

/-- How many tombstones are held, in whatever source. -/
def tombstoneCount (s : Store) : Nat := (s.memstore :: s.files).flatten.countP Cell.isTombstone

def write (s : Store) (cells : List Cell) : Store :=
  { s with memstore := cells.foldl (fun m c => Run.insert c m) s.memstore }

/-- Mask every version of a column at or below a timestamp. -/
def delete (s : Store) (column : Column) (timestamp : TxId) : Store :=
  s.write [⟨column, timestamp, [], [Tag.tombstone]⟩]

/-- The cells that a plan shows, and its filter after them. -/
def read (s : Store) (p : Plan) : Except Error (List Cell) × Option Filter := p.run s.contents

/-- What a flush or compaction keeps of some cells. Only a major compaction applies tombstones. -/
def condense (kind : Upkeep) (scan : Option StoreScan) (cells : List Cell) :
    Except Error (List Cell) × Option StoreScan :=
  Sweep.run { appliesTombstones := kind == .compact .major } {} scan cells

/-- Add a file; an empty one is left out. -/
def addFile (file : List Cell) (files : List (List Cell)) : List (List Cell) :=
  if file.isEmpty then files else files ++ [file]

/-- What a scan reports when it is done. -/
def finished : Option StoreScan → List Event
  | some scan => [.scanFinished scan.summary]
  | none => []

/-- Turn the memstore into a file; an error keeps it. -/
def flush (s : Store) (region : String) (scan : Option StoreScan) : Outcome Store Unit :=
  match condense .flush scan s.memstore with
  | (.error e, _) => ⟨.error e, s, []⟩
  | (.ok file, scan) =>
    ⟨.ok (), ⟨[], addFile file s.files⟩,
      finished scan ++ [.memstoreFlushed region s.memstore.length file.length]⟩

/-- Turn all files into one; an error keeps them. -/
def compact (s : Store) (region : String) (kind : Compaction) (scan : Option StoreScan) :
    Outcome Store Unit :=
  match condense (.compact kind) scan s.fileContents with
  | (.error e, _) => ⟨.error e, s, []⟩
  | (.ok file, scan) =>
    ⟨.ok (), { s with files := addFile file [] },
      finished scan ++ [.filesCompacted region kind.name s.fileContents.length file.length]⟩

end Store

end CellStore
