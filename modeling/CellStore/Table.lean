import CellStore.Ttl

/-! # Tables

A table has a name and column families, and a family has text properties. One
property limits how long the family's versions live.
-/
namespace CellStore

/-- The property that holds a time to live in milliseconds. -/
def ttlProperty : String := "txfilter.ttl"

structure Family where
  name : Bytes
  /-- Values by name, the latest setting of a name first. -/
  properties : List (String × String) := []
deriving DecidableEq, Repr

namespace Family

/-- Set a property. -/
def set (f : Family) (name value : String) : Family :=
  { f with properties := (name, value) :: f.properties.filter (·.1 != name) }

/-- Set the time to live. -/
def setTtl (f : Family) (millis : Nat) : Family := f.set ttlProperty (toString millis)

def property? (f : Family) (name : String) : Option String := f.properties.lookup name

end Family

structure Table where
  name : String
  families : List Family := []
deriving DecidableEq, Repr

namespace Table

/-- The times to live of the families, and what is reported while they are read. -/
def ttls (t : Table) : TtlTable × List Event :=
  TtlTable.ofProperties (t.families.map fun f => (f.name, f.property? ttlProperty))

end Table

end CellStore
