/-! # Byte strings

Row keys, family names, qualifiers and values are byte strings. They are ordered
byte by byte, a proper beginning before the whole.
-/
namespace CellStore

abbrev Bytes := List UInt8

namespace Bytes

/-- The UTF-8 bytes of a text. -/
def ofText (s : String) : Bytes := s.toUTF8.toList

end Bytes

end CellStore
