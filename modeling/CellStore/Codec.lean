import CellStore.MessagePack.Head
import CellStore.Transaction

/-! # Transactions as attribute bytes

Clients attach their transaction to a request as bytes. What goes over the wire is a
payload, in whatever format; a transaction is built from it when it comes in. The usual
format writes a MessagePack array of the id, the upper bound, the excluded and the
invalid ids. It also reads a map from the four names, in any order and among any
others, takes small ids packed as a binary, and passes over whatever follows the first
value.
-/
namespace CellStore

/-- The wire form of a transaction. Its ids may come in any order and with any repeats. -/
structure Payload where
  id : TxId
  upperBound : TxId
  excluded : List TxId
  invalid : List TxId
deriving DecidableEq, Repr

namespace Payload

def ofTransaction (t : Transaction) : Payload :=
  ⟨t.id, t.upperBound, t.excluded.ids, t.invalid.ids⟩

/-- The transaction of a payload. -/
def transaction (p : Payload) : Transaction := .ofLists p.id p.upperBound p.excluded p.invalid

end Payload

/-- A format of payloads. Reading gives the payload that the bytes begin with and the bytes after
it, or the reason why there is none. -/
structure Wire where
  write : Payload → Bytes
  read : Bytes → Except String (Payload × Bytes)

/-- A way to write transactions as bytes and to read them back. -/
structure Codec where
  encode : Transaction → Bytes
  decode : Bytes → Except Error Transaction

/-- The codec of a format. Whatever follows the payload is passed over. -/
def Codec.ofWire (w : Wire) : Codec where
  encode t := w.write (.ofTransaction t)
  decode bytes :=
    match w.read bytes with
    | .ok (p, _) => .ok p.transaction
    | .error reason => .error (.decode reason)

namespace Codec

variable {w : Wire} {bytes : Bytes}

theorem ofWire_decode_ok_iff {t : Transaction} : (ofWire w).decode bytes = .ok t ↔
    ∃ p rest, w.read bytes = .ok (p, rest) ∧ p.transaction = t := by
  cases hread : w.read bytes with
  | error reason => simp [ofWire, hread]
  | ok read => simp [ofWire, hread, Prod.ext_iff]

/-- Bytes from which the format reads nothing are reported as such. -/
theorem ofWire_decode_error_iff {e : Error} : (ofWire w).decode bytes = .error e ↔
    ∃ reason, w.read bytes = .error reason ∧ e = .decode reason := by
  cases hread : w.read bytes with
  | error reason => simp [ofWire, hread, eq_comm]
  | ok read => simp [ofWire, hread]

end Codec

namespace MessagePack

/-- An id: a number that is not negative, in any width. -/
def readId (bs : Bytes) : Option (TxId × Bytes) := do
  let (head, rest) ← readHead bs
  match head with
  | .unsigned n => some (UInt64.ofNat n, rest)
  | .signed n => if 0 ≤ n then some (UInt64.ofNat n.toNat, rest) else none
  | _ => none

def readIds : Nat → Bytes → Option (List TxId × Bytes)
  | 0, bs => some ([], bs)
  | n + 1, bs => do
    let (id, bs) ← readId bs
    let (ids, bs) ← readIds n bs
    some (id :: ids, bs)

/-- A list of ids: an array of them, or a binary whose bytes are each an id. -/
def readIdList (bs : Bytes) : Option (List TxId × Bytes) := do
  let (head, rest) ← readHead bs
  match head with
  | .array n => readIds n rest
  | .binary n => (take? n rest).map fun (ids, rest) => (ids.map UInt8.toUInt64, rest)
  | _ => none

/-- The parts of a transaction, each by its name or by its position. -/
inductive Field where
  | id
  | upperBound
  | excluded
  | invalid
deriving DecidableEq, Repr

namespace Field

def all : List Field := [id, upperBound, excluded, invalid]

def name : Field → List Char
  | id => ['i', 'd']
  | upperBound => ['v', 'i', 's', 'i', 'b', 'i', 'l', 'i', 't', 'y', '_', 'u', 'p', 'p', 'e', 'r', '_',
      'b', 'o', 'u', 'n', 'd']
  | excluded => ['e', 'x', 'c', 'l', 'u', 'd', 'e', 'd']
  | invalid => ['i', 'n', 'v', 'a', 'l', 'i', 'd']

/-- The name as bytes; it is ASCII. -/
def key (f : Field) : Bytes := f.name.map fun c => UInt8.ofNat c.toNat

def ofKey? (bytes : Bytes) : Option Field := all.find? (fun f => f.key == bytes)

end Field

/-- The key of a map entry; `none` for one that names no part. -/
def readKey (bs : Bytes) : Option (Option Field × Bytes) := do
  let (head, rest) ← readHead bs
  match head with
  | .text n | .binary n => (take? n rest).map fun (key, rest) => (Field.ofKey? key, rest)
  | .unsigned n => some (Field.all[n]?, rest)
  | _ => none

/-- The parts read so far. -/
structure Parts where
  id : Option TxId := none
  upperBound : Option TxId := none
  excluded : Option (List TxId) := none
  invalid : Option (List TxId) := none

namespace Parts

/-- Read the value of a part, which may come only once. -/
def read (p : Parts) (f : Field) (bs : Bytes) : Option (Parts × Bytes) :=
  match f with
  | .id => if p.id.isSome then none else (readId bs).map fun (x, r) => ({ p with id := some x }, r)
  | .upperBound =>
    if p.upperBound.isSome then none
    else (readId bs).map fun (x, r) => ({ p with upperBound := some x }, r)
  | .excluded =>
    if p.excluded.isSome then none
    else (readIdList bs).map fun (x, r) => ({ p with excluded := some x }, r)
  | .invalid =>
    if p.invalid.isSome then none
    else (readIdList bs).map fun (x, r) => ({ p with invalid := some x }, r)

/-- The payload, once all parts are there. -/
def payload? (p : Parts) : Option Payload := do
  return ⟨← p.id, ← p.upperBound, ← p.excluded, ← p.invalid⟩

end Parts

/-- How deep the values of unknown map entries may nest. -/
def entryDepth : Nat := 1023

def readEntries : Nat → Parts → Bytes → Option (Parts × Bytes)
  | 0, p, bs => some (p, bs)
  | n + 1, p, bs => do
    let (field, bs) ← readKey bs
    match field with
    | none => readEntries n p (← skip entryDepth bs)
    | some f =>
      let (p, bs) ← p.read f bs
      readEntries n p bs

/-- The parts of a payload one after the other. -/
def readParts (bs : Bytes) : Option (Payload × Bytes) := do
  let (id, bs) ← readId bs
  let (upperBound, bs) ← readId bs
  let (excluded, bs) ← readIdList bs
  let (invalid, bs) ← readIdList bs
  some (⟨id, upperBound, excluded, invalid⟩, bs)

/-- The payload that the bytes begin with, and the bytes after it. -/
def readPayload (bs : Bytes) : Option (Payload × Bytes) := do
  let (head, bs) ← readHead bs
  match head with
  | .array 4 => readParts bs
  | .map n =>
    let (parts, bs) ← readEntries n {} bs
    return (← parts.payload?, bs)
  | _ => none

def writeId (id : TxId) : Bytes := writeUnsigned id.toNat

def writeIdList (ids : List TxId) : Bytes := writeArray ids.length ++ ids.flatMap writeId

def writePayload (p : Payload) : Bytes :=
  writeArray 4 ++ writeId p.id ++ writeId p.upperBound ++ writeIdList p.excluded ++
    writeIdList p.invalid

/-- The format used unless a processor is given another codec. -/
def wire : Wire where
  write := writePayload
  read bs :=
    match readPayload bs with
    | some read => .ok read
    | none => .error "the bytes are not a transaction"

end MessagePack

/-- The codec used unless a processor is given another one. -/
def Codec.messagePack : Codec := .ofWire MessagePack.wire

end CellStore
