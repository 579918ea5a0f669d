import CellStore.Event
import CellStore.Text.Number

/-! # Times to live

A family may limit how long its versions live. A limit of zero, or no entry at
all, is no limit. Versions older than the cutoff of their family have expired.
-/
namespace CellStore

/-- Milliseconds to live by family, each family at most once. -/
structure TtlTable where
  entries : List (Bytes × Nat) := []
deriving DecidableEq, Repr

namespace TtlTable

def set (t : TtlTable) (family : Bytes) (millis : Nat) : TtlTable :=
  ⟨t.entries.filter (·.1 != family) ++ [(family, millis)]⟩

/-- The table of some entries; the last one of a family counts. -/
def ofList (entries : List (Bytes × Nat)) : TtlTable :=
  entries.foldl (fun t e => t.set e.1 e.2) {}

def size (t : TtlTable) : Nat := t.entries.length

def millis (t : TtlTable) (family : Bytes) : Nat := (t.entries.lookup family).getD 0

/-- The oldest timestamp still alive in a family; `none` where versions live forever. -/
def cutoff (t : TtlTable) (family : Bytes) (now : TxId) : Option TxId :=
  match t.millis family with
  | 0 => none
  | millis => some (now.saturatingSub (Tick.ofMillis millis))

/-- The oldest timestamp that any family may still show. -/
def oldestVisible (t : TtlTable) (now : TxId) : TxId :=
  match t.entries.map fun e => (t.cutoff e.1 now).getD 0 with
  | [] => 0
  | oldest :: rest => rest.foldl min oldest

/-- What the text of a family's property sets, and what is reported of it. A text that is no word
in decimal sets no limit. -/
def readProperty (family : Bytes) : Option String → Nat × List Event
  | none => (0, [])
  | some raw =>
    match Text.word? (Text.trim raw.toList) with
    | some millis => (millis, [.familyTtl family millis])
    | none => (0, [.invalidTtl family raw])

/-- The table of the properties of some families. -/
def ofProperties (properties : List (Bytes × Option String)) : TtlTable × List Event :=
  let read := properties.map fun p => (p.1, readProperty p.1 p.2)
  (ofList (read.map fun r => (r.1, r.2.1)), read.flatMap (·.2.2))

end TtlTable

end CellStore
