import CellStore.Bytes

/-! # UTF-8

Bytes are read as a sequence of pieces. A piece is a character, or a stretch of
bytes that can begin a character and breaks off; a byte that begins none is a
piece by itself. Lossy reading puts the replacement character for each stretch,
strict reading refuses the text.
-/
namespace CellStore.Text.Utf8

/-- A character whose first bytes are read: how many bytes it still owes, the range of the next
one, and the value of the bits so far. -/
structure Open where
  owed : Nat
  low : UInt8
  high : UInt8
  bits : Nat
deriving DecidableEq

/-- What a first byte of two or more begins. -/
def lead (b : UInt8) : Option Open :=
  let n := b.toNat
  if 0xC2 ≤ b ∧ b ≤ 0xDF then some ⟨1, 0x80, 0xBF, n - 0xC0⟩
  else if b = 0xE0 then some ⟨2, 0xA0, 0xBF, 0⟩
  else if b = 0xED then some ⟨2, 0x80, 0x9F, 0xD⟩
  else if 0xE1 ≤ b ∧ b ≤ 0xEF then some ⟨2, 0x80, 0xBF, n - 0xE0⟩
  else if b = 0xF0 then some ⟨3, 0x90, 0xBF, 0⟩
  else if b = 0xF4 then some ⟨3, 0x80, 0x8F, 4⟩
  else if 0xF1 ≤ b ∧ b ≤ 0xF3 then some ⟨3, 0x80, 0xBF, n - 0xF0⟩
  else none

/-- The pieces of a byte string; `none` stands for a stretch that is no character. -/
def pieces : Option Open → Bytes → List (Option Char)
  | none, [] => []
  | some _, [] => [none]
  | o, b :: bs =>
    let fresh : List (Option Char) :=
      if b < 0x80 then some (Char.ofNat b.toNat) :: pieces none bs
      else match lead b with
        | some o => pieces (some o) bs
        | none => none :: pieces none bs
    match o with
    | none => fresh
    | some o =>
      if o.low ≤ b ∧ b ≤ o.high then
        let bits := o.bits * 64 + (b.toNat - 0x80)
        if o.owed ≤ 1 then some (Char.ofNat bits) :: pieces none bs
        else pieces (some ⟨o.owed - 1, 0x80, 0xBF, bits⟩) bs
      else none :: fresh

/-- The text, with the replacement character for each stretch that is no character. -/
def decodeLossy (bytes : Bytes) : String :=
  String.ofList ((pieces none bytes).map (·.getD '\uFFFD'))

/-- The text, if all of the bytes are characters. -/
def decode? (bytes : Bytes) : Option String :=
  ((pieces none bytes).mapM id).map String.ofList

end CellStore.Text.Utf8
