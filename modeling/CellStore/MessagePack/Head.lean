import CellStore.Bytes

/-! # MessagePack heads

Every value begins with a head: a byte that gives its kind, and the number or
the length that follows it. Numbers are big-endian. Writers choose the shortest
form of a number or length, readers take any.
-/
namespace CellStore.MessagePack

/-- What the head of a value says. The parts of a text, a container or an extension come after it. -/
inductive Head where
  | nil
  | boolean (b : Bool)
  | unsigned (n : Nat)
  | signed (n : Int)
  | float (bits : Nat)
  | text (length : Nat)
  | binary (length : Nat)
  | array (length : Nat)
  | map (length : Nat)
  | extension (length : Nat)
deriving DecidableEq, Repr

/-- The first `n` bytes and those after them. -/
def take? : Nat → Bytes → Option (Bytes × Bytes)
  | 0, bs => some ([], bs)
  | _ + 1, [] => none
  | n + 1, b :: bs => (take? n bs).map fun (front, rest) => (b :: front, rest)

/-- The number that big-endian bytes stand for. -/
def ofBigEndian (bs : Bytes) : Nat := bs.foldl (fun n b => n * 256 + b.toNat) 0

/-- The low bytes of a number, the most significant first. -/
def toBigEndian : (width : Nat) → Nat → Bytes
  | 0, _ => []
  | w + 1, n => toBigEndian w (n / 256) ++ [UInt8.ofNat n]

/-- The signed reading of a number that is one of `size`: the upper half stands for the negative
numbers. -/
def twosComplement (size n : Nat) : Int := if 2 * n < size then n else n - size

/-- A head whose number follows its first byte. -/
def readNumber (width : Nat) (head : Nat → Head) (bs : Bytes) : Option (Head × Bytes) :=
  (take? width bs).map fun (front, rest) => (head (ofBigEndian front), rest)

/-- The head at the start of the bytes, and the bytes after it. -/
def readHead : Bytes → Option (Head × Bytes)
  | [] => none
  | b :: bs =>
    let n := b.toNat
    if n < 0x80 then some (.unsigned n, bs)
    else if n < 0x90 then some (.map (n - 0x80), bs)
    else if n < 0xa0 then some (.array (n - 0x90), bs)
    else if n < 0xc0 then some (.text (n - 0xa0), bs)
    else if 0xe0 ≤ n then some (.signed (n - 0x100), bs)
    else match n with
      | 0xc0 => some (.nil, bs)
      | 0xc2 => some (.boolean false, bs)
      | 0xc3 => some (.boolean true, bs)
      | 0xc4 => readNumber 1 .binary bs
      | 0xc5 => readNumber 2 .binary bs
      | 0xc6 => readNumber 4 .binary bs
      | 0xc7 => readNumber 1 .extension bs
      | 0xc8 => readNumber 2 .extension bs
      | 0xc9 => readNumber 4 .extension bs
      | 0xca => readNumber 4 .float bs
      | 0xcb => readNumber 8 .float bs
      | 0xcc => readNumber 1 .unsigned bs
      | 0xcd => readNumber 2 .unsigned bs
      | 0xce => readNumber 4 .unsigned bs
      | 0xcf => readNumber 8 .unsigned bs
      | 0xd0 => readNumber 1 (fun n => .signed (twosComplement UInt8.size n)) bs
      | 0xd1 => readNumber 2 (fun n => .signed (twosComplement UInt16.size n)) bs
      | 0xd2 => readNumber 4 (fun n => .signed (twosComplement UInt32.size n)) bs
      | 0xd3 => readNumber 8 (fun n => .signed (twosComplement UInt64.size n)) bs
      | 0xd4 => some (.extension 1, bs)
      | 0xd5 => some (.extension 2, bs)
      | 0xd6 => some (.extension 4, bs)
      | 0xd7 => some (.extension 8, bs)
      | 0xd8 => some (.extension 16, bs)
      | 0xd9 => readNumber 1 .text bs
      | 0xda => readNumber 2 .text bs
      | 0xdb => readNumber 4 .text bs
      | 0xdc => readNumber 2 .array bs
      | 0xdd => readNumber 4 .array bs
      | 0xde => readNumber 2 .map bs
      | 0xdf => readNumber 4 .map bs
      | _ => none

/-- The shortest head of a word. -/
def writeUnsigned (n : Nat) : Bytes :=
  if n < 0x80 then [UInt8.ofNat n]
  else if n < UInt8.size then 0xcc :: toBigEndian 1 n
  else if n < UInt16.size then 0xcd :: toBigEndian 2 n
  else if n < UInt32.size then 0xce :: toBigEndian 4 n
  else 0xcf :: toBigEndian 8 n

/-- The shortest head of an array whose length fits in 32 bits. -/
def writeArray (length : Nat) : Bytes :=
  if length < 16 then [UInt8.ofNat (0x90 + length)]
  else if length < UInt16.size then 0xdc :: toBigEndian 2 length
  else 0xdd :: toBigEndian 4 length

/-! ## Passing over a value -/

/-- Pass over several values in a row. -/
def skipAll (skip : Bytes → Option Bytes) : Nat → Bytes → Option Bytes
  | 0, bs => some bs
  | n + 1, bs => (skip bs).bind (skipAll skip n)

/-- Pass over one value. Containers and extensions nest less than `depth` deep. -/
def skip : (depth : Nat) → Bytes → Option Bytes
  | 0, _ => none
  | depth + 1, bs => do
    let (head, rest) ← readHead bs
    match head with
    | .text n | .binary n => (take? n rest).map (·.2)
    | .extension n => if depth = 0 then none else (take? (n + 1) rest).map (·.2)
    | .array n => if depth = 0 then none else skipAll (skip depth) n rest
    | .map n => if depth = 0 then none else skipAll (skip depth) (2 * n) rest
    | _ => some rest

theorem take?_append (front rest : Bytes) :
    take? front.length (front ++ rest) = some (front, rest) := by
  induction front with
  | nil => rfl
  | cons b bs ih => simp [take?, ih]

@[simp] theorem toBigEndian_length (w n : Nat) : (toBigEndian w n).length = w := by
  induction w generalizing n with
  | zero => rfl
  | succ w ih => simp [toBigEndian, ih]

end CellStore.MessagePack
