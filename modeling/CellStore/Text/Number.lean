/-! # Reading unsigned numbers

Blank characters are those with the Unicode property White_Space.
-/
namespace CellStore.Text

/-- The characters with the property White_Space. -/
def blanks : List Char :=
  ['\t', '\n', '\x0b', '\x0c', '\r', ' ', '\u0085', '\u00a0', '\u1680', '\u2000', '\u2001', '\u2002',
    '\u2003', '\u2004', '\u2005', '\u2006', '\u2007', '\u2008', '\u2009', '\u200a', '\u2028', '\u2029',
    '\u202f', '\u205f', '\u3000']

def isBlank (c : Char) : Bool := blanks.contains c

/-- The characters without the blanks at both ends. -/
def trim (cs : List Char) : List Char :=
  (cs.dropWhile isBlank).reverse.dropWhile isBlank |>.reverse

/-- The value of a non-empty string of decimal digits. -/
def digits? : List Char → Option Nat
  | [] => none
  | cs => if cs.all Char.isDigit then some (cs.foldl (fun n c => n * 10 + (c.toNat - '0'.toNat)) 0) else none

/-- A number that fits in a word: decimal digits, which a plus sign may precede. -/
def word? (cs : List Char) : Option Nat :=
  (digits? (match cs with | '+' :: ds => ds | ds => ds)).filter (· < UInt64.size)

end CellStore.Text
