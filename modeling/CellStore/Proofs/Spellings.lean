import Mathlib.Tactic.FinCases
import CellStore.Proofs.Encoding

/-! # Spellings of a transaction

A transaction can be spelled in many ways: as an array of its parts, or as a map from the names of
the parts in any order and among others, with numbers and lengths in any width and with ids in any
order and more than once. What the heads of each kind look like is a table of the format. A reader
takes all of these spellings, and to it they are the same transaction.
-/
namespace CellStore

namespace MessagePack

/-! ## Heads of every width -/

/-- A head whose number comes after a first byte, in so many bytes and below a limit. -/
structure Wide where
  first : UInt8
  width : Nat
  limit : Nat

/-- The heads of one kind. A number below `small` is part of the first byte. -/
structure Form where
  base : Nat
  small : Nat
  wide : List Wide

namespace Form

def unsigned : Form :=
  ⟨0, 0x80, [⟨0xcc, 1, 2 ^ 8⟩, ⟨0xcd, 2, 2 ^ 16⟩, ⟨0xce, 4, 2 ^ 32⟩, ⟨0xcf, 8, 2 ^ 64⟩]⟩

/-- Numbers with a sign that is not negative. -/
def positive : Form :=
  ⟨0, 0, [⟨0xd0, 1, 2 ^ 7⟩, ⟨0xd1, 2, 2 ^ 15⟩, ⟨0xd2, 4, 2 ^ 31⟩, ⟨0xd3, 8, 2 ^ 63⟩]⟩

def array : Form := ⟨0x90, 16, [⟨0xdc, 2, 2 ^ 16⟩, ⟨0xdd, 4, 2 ^ 32⟩]⟩

def map : Form := ⟨0x80, 16, [⟨0xde, 2, 2 ^ 16⟩, ⟨0xdf, 4, 2 ^ 32⟩]⟩

def text : Form := ⟨0xa0, 32, [⟨0xd9, 1, 2 ^ 8⟩, ⟨0xda, 2, 2 ^ 16⟩, ⟨0xdb, 4, 2 ^ 32⟩]⟩

def binary : Form := ⟨0, 0, [⟨0xc4, 1, 2 ^ 8⟩, ⟨0xc5, 2, 2 ^ 16⟩, ⟨0xc6, 4, 2 ^ 32⟩]⟩

/-- The ways in which a number is spelled in a form. -/
inductive Spells (f : Form) (n : Nat) : Bytes → Prop
  | small (h : n < f.small) : Spells f n [UInt8.ofNat (f.base + n)]
  | wide {w : Wide} (hw : w ∈ f.wide) (h : n < w.limit) :
    Spells f n (w.first :: toBigEndian w.width n)

/-- A reader takes what is spelled in the form for heads of this kind. -/
structure Means (f : Form) (head : Nat → Head) : Prop where
  small : ∀ n < f.small, readHead [UInt8.ofNat (f.base + n)] = some (head n, [])
  wide : ∀ w ∈ f.wide, w.limit ≤ 256 ^ w.width ∧ ∃ number,
    (∀ bs, readHead (w.first :: bs) = readNumber w.width number bs) ∧ ∀ n < w.limit, number n = head n

variable {f : Form} {n : Nat} {bytes : Bytes}

theorem Spells.reads {head : Nat → Head} (h : f.Spells n bytes) (hf : f.Means head) :
    readHead bytes = some (head n, []) := by
  cases h with
  | small h => exact hf.small n h
  | wide hw h =>
    obtain ⟨hlimit, number, hread, hnumber⟩ := hf.wide _ hw
    rw [hread, readNumber_toBigEndian number (Nat.lt_of_lt_of_le h hlimit), hnumber n h]

theorem unsigned_means : unsigned.Means .unsigned where
  small := by decide
  wide w hw := by
    fin_cases hw <;> exact ⟨by decide, .unsigned, fun _ => rfl, fun _ _ => rfl⟩

theorem positive_means : positive.Means fun n => .signed n where
  small _ h := absurd h (Nat.not_lt_zero _)
  wide w hw := by
    have hsigned {size n : Nat} (h : n < size) :
        Head.signed (twosComplement (2 * size) n) = .signed n := by
      rw [twosComplement, if_pos (by omega)]
    fin_cases hw <;> exact ⟨by decide, _, fun _ => rfl, fun _ hn => hsigned hn⟩

theorem array_means : array.Means .array where
  small := by decide
  wide w hw := by
    fin_cases hw <;> exact ⟨by decide, .array, fun _ => rfl, fun _ _ => rfl⟩

theorem map_means : map.Means .map where
  small := by decide
  wide w hw := by
    fin_cases hw <;> exact ⟨by decide, .map, fun _ => rfl, fun _ _ => rfl⟩

theorem text_means : text.Means .text where
  small := by decide
  wide w hw := by
    fin_cases hw <;> exact ⟨by decide, .text, fun _ => rfl, fun _ _ => rfl⟩

theorem binary_means : binary.Means .binary where
  small _ h := absurd h (Nat.not_lt_zero _)
  wide w hw := by
    fin_cases hw <;> exact ⟨by decide, .binary, fun _ => rfl, fun _ _ => rfl⟩

end Form

/-! ## Spellings of the parts -/

/-- An id, as an unsigned number or as a signed one that is not negative. -/
def IdSpelled (id : TxId) (bytes : Bytes) : Prop :=
  Form.unsigned.Spells id.toNat bytes ∨ Form.positive.Spells id.toNat bytes

/-- A list of ids, as an array of them or with each id in a byte of a binary. -/
inductive IdsSpelled : List TxId → Bytes → Prop
  | array {ids : List TxId} {head : Bytes} {parts : List Bytes}
    (hhead : Form.array.Spells ids.length head) (hparts : List.Forall₂ IdSpelled ids parts) :
    IdsSpelled ids (head ++ parts.flatten)
  | packed {head packed : Bytes} (hhead : Form.binary.Spells packed.length head) :
    IdsSpelled (packed.map UInt8.toUInt64) (head ++ packed)

/-- A string of bytes, as a text or as a binary. -/
def StringSpelled (content bytes : Bytes) : Prop :=
  ∃ head, bytes = head ++ content ∧
    (Form.text.Spells content.length head ∨ Form.binary.Spells content.length head)

/-- The key of a part, or of none: a name, or the position among the parts. -/
inductive KeySpelled : Option Field → Bytes → Prop
  | name {name bytes : Bytes} (h : StringSpelled name bytes) : KeySpelled (Field.ofKey? name) bytes
  | position {n : Nat} {bytes : Bytes} (h : Form.unsigned.Spells n bytes) :
    KeySpelled Field.all[n]? bytes

/-- The scalar values: nil, a boolean, a number of any kind, or a string. -/
inductive Scalar : Bytes → Prop
  | single {b : UInt8} (h : b < 0x80 ∨ 0xe0 ≤ b ∨ b ∈ [0xc0, 0xc2, 0xc3]) : Scalar [b]
  | number {first : UInt8} {bytes : Bytes} (h : (first, bytes.length) ∈ [(0xca, 4), (0xcb, 8),
    (0xcc, 1), (0xcd, 2), (0xce, 4), (0xcf, 8), (0xd0, 1), (0xd1, 2), (0xd2, 4), (0xd3, 8)]) :
    Scalar (first :: bytes)
  | string {content bytes : Bytes} (h : StringSpelled content bytes) : Scalar bytes

end MessagePack

open MessagePack

namespace Payload

/-- A part of the payload. -/
def PartSpelled (p : Payload) : Field → Bytes → Prop
  | .id => IdSpelled p.id
  | .upperBound => IdSpelled p.upperBound
  | .excluded => IdsSpelled p.excluded
  | .invalid => IdsSpelled p.invalid

/-- So many entries of a map: these parts, and scalar values under keys of no part. -/
inductive EntriesSpelled (p : Payload) : List Field → Nat → Bytes → Prop
  | nil : EntriesSpelled p [] 0 []
  | part {f : Field} {fields : List Field} {n : Nat} {key value entries : Bytes}
    (hkey : KeySpelled (some f) key) (hvalue : p.PartSpelled f value)
    (hrest : EntriesSpelled p fields n entries) :
    EntriesSpelled p (f :: fields) (n + 1) (key ++ (value ++ entries))
  | unknown {fields : List Field} {n : Nat} {key value entries : Bytes}
    (hkey : KeySpelled none key) (hvalue : Scalar value) (hrest : EntriesSpelled p fields n entries) :
    EntriesSpelled p fields (n + 1) (key ++ (value ++ entries))

/-- The payload, as an array of its parts or as a map that has each of them once. -/
inductive Spelled (p : Payload) : Bytes → Prop
  | array {head id upperBound excluded invalid : Bytes} (hhead : Form.array.Spells 4 head)
    (hid : p.PartSpelled .id id) (hbound : p.PartSpelled .upperBound upperBound)
    (hexcluded : p.PartSpelled .excluded excluded) (hinvalid : p.PartSpelled .invalid invalid) :
    Spelled p (head ++ (id ++ (upperBound ++ (excluded ++ invalid))))
  | map {fields : List Field} {n : Nat} {head entries : Bytes} (hhead : Form.map.Spells n head)
    (hentries : p.EntriesSpelled fields n entries) (hfields : fields.Perm Field.all) :
    Spelled p (head ++ entries)

end Payload

/-! ## Reading them -/

namespace MessagePack

variable {bytes rest : Bytes}

theorem IdSpelled.reads {id : TxId} (h : IdSpelled id bytes) : readId bytes = some (id, []) := by
  rcases h with h | h
  · simp [readId, h.reads Form.unsigned_means]
  · simp [readId, h.reads Form.positive_means]

theorem IdsSpelled.reads {ids : List TxId} (h : IdsSpelled ids bytes) :
    readIdList bytes = some (ids, []) := by
  cases h with
  | array hhead hparts =>
    have hids := readIds_parts (hparts.imp fun _ _ hid => hid.reads)
    simp [readIdList, readHead_streams.append (hhead.reads Form.array_means), hids]
  | @packed head packed hhead =>
    have htake := take?_append packed []
    simp_all [readIdList, readHead_streams.append (hhead.reads Form.binary_means)]

/-- What a string begins with is the head of a text or a binary, and the rest of it is as long as
that says. -/
theorem StringSpelled.reads {content : Bytes} (h : StringSpelled content bytes) (rest : Bytes) :
    (readHead (bytes ++ rest) = some (.text content.length, content ++ rest) ∨
      readHead (bytes ++ rest) = some (.binary content.length, content ++ rest)) ∧
      take? content.length (content ++ rest) = some (content, rest) := by
  obtain ⟨head, rfl, hhead⟩ := h
  rw [List.append_assoc]
  refine ⟨hhead.imp (fun h => ?_) fun h => ?_, take?_append content rest⟩
  · exact readHead_streams.append (h.reads Form.text_means) _
  · exact readHead_streams.append (h.reads Form.binary_means) _

theorem KeySpelled.reads {f : Option Field} (h : KeySpelled f bytes) (rest : Bytes) :
    readKey (bytes ++ rest) = some (f, rest) := by
  cases h with
  | name h =>
    obtain ⟨hhead | hhead, htake⟩ := h.reads rest
    · simp [readKey, hhead, htake]
    · simp [readKey, hhead, htake]
  | position h => simp [readKey, readHead_streams.append (h.reads Form.unsigned_means)]

/-- A scalar is passed over wherever there is a value to pass over. -/
theorem Scalar.skips (h : Scalar bytes) (depth : Nat) (rest : Bytes) :
    skip (depth + 1) (bytes ++ rest) = some rest := by
  cases h with
  | @single b h =>
    rcases h with hlow | hhigh | hword
    · have hb : b.toNat < 0x80 := hlow
      simp [skip, readHead, hb]
    · have hb : 0xe0 ≤ b.toNat := hhigh
      have hhead : readHead (b :: rest) = some (.signed (b.toNat - 0x100), rest) := by
        unfold readHead
        dsimp only
        split_ifs <;> first | rfl | omega
      simp [skip, hhead]
    · fin_cases hword <;> rfl
  | @number first bytes h =>
    have htake := take?_append bytes rest
    simp only [List.mem_cons, List.not_mem_nil, or_false, Prod.mk.injEq] at h
    rcases h with h | h | h | h | h | h | h | h | h | h <;> obtain ⟨rfl, hwidth⟩ := h <;>
      rw [hwidth] at htake <;> simp [skip, readHead, readNumber, htake]
  | string h =>
    obtain ⟨hhead | hhead, htake⟩ := h.reads rest
    · simp [skip, hhead, htake]
    · simp [skip, hhead, htake]

namespace Field

theorem mem_all (f : Field) : f ∈ all := by
  cases f <;> decide

theorem ofKey?_key (f : Field) : ofKey? f.key = some f := by
  cases f <;> rfl

end Field

end MessagePack

namespace Payload

variable {p : Payload} {f : Field} {fields seen : List Field} {n : Nat} {bytes : Bytes}

/-- The parts of the payload that were seen. -/
def parts (p : Payload) (seen : List Field) : Parts where
  id := if .id ∈ seen then some p.id else none
  upperBound := if .upperBound ∈ seen then some p.upperBound else none
  excluded := if .excluded ∈ seen then some p.excluded else none
  invalid := if .invalid ∈ seen then some p.invalid else none

theorem PartSpelled.reads (h : p.PartSpelled f bytes) (hf : f ∉ seen) (rest : Bytes) :
    (p.parts seen).read f (bytes ++ rest) = some (p.parts (seen ++ [f]), rest) := by
  cases f with
  | id => simp [Parts.read, parts, hf, readId_streams.append (IdSpelled.reads h)]
  | upperBound => simp [Parts.read, parts, hf, readId_streams.append (IdSpelled.reads h)]
  | excluded => simp [Parts.read, parts, hf, readIdList_streams.append (IdsSpelled.reads h)]
  | invalid => simp [Parts.read, parts, hf, readIdList_streams.append (IdsSpelled.reads h)]

/-- Reading entries adds their parts to those that were seen. -/
theorem EntriesSpelled.reads (h : p.EntriesSpelled fields n bytes)
    (hfields : (seen ++ fields).Nodup) :
    readEntries n (p.parts seen) bytes = some (p.parts (seen ++ fields), []) := by
  -- Over the entries; what was seen before them is at the front of what was seen after them.
  induction h generalizing seen with
  | nil => simp [readEntries]
  | @part f fields n key value entries hkey hvalue _ ih =>
    have hf : f ∉ seen := fun hmem => (List.nodup_append.1 hfields).2.2 f hmem f List.mem_cons_self rfl
    have hsplit : seen ++ f :: fields = (seen ++ [f]) ++ fields := by simp
    rw [hsplit] at hfields ⊢
    simp only [readEntries, hkey.reads, bind, Option.bind_some, hvalue.reads hf]
    exact ih hfields
  | @unknown fields n key value entries hkey hvalue _ ih =>
    simp only [readEntries, hkey.reads, bind, Option.bind_some, entryDepth, hvalue.skips]
    exact ih hfields

theorem parts_of_perm (h : fields.Perm Field.all) : (p.parts fields).payload? = some p := by
  have hall (f : Field) : f ∈ fields := h.mem_iff.2 f.mem_all
  simp [parts, Parts.payload?, hall]

/-- Every spelling is read. -/
theorem Spelled.reads (h : p.Spelled bytes) : readPayload bytes = some (p, []) := by
  cases h with
  | @array head id upperBound excluded invalid hhead hid hbound hexcluded hinvalid =>
    simp [readPayload, readHead_streams.append (hhead.reads Form.array_means), readParts,
      readId_streams.append (IdSpelled.reads hid), readId_streams.append (IdSpelled.reads hbound),
      readIdList_streams.append (IdsSpelled.reads hexcluded), IdsSpelled.reads hinvalid]
  | @map fields n head entries hhead hentries hfields =>
    have hread := readHead_streams.append (hhead.reads Form.map_means) entries
    have hnodup : ([] ++ fields).Nodup := hfields.nodup_iff.2 (by decide)
    have hseen := hentries.reads hnodup
    have hempty : p.parts [] = {} := rfl
    rw [hempty, List.nil_append] at hseen
    simp [readPayload, hread, hseen, parts_of_perm hfields]

end Payload

/-! ## The shortest spelling -/

namespace MessagePack

variable {bytes rest : Bytes}

theorem toBigEndian_ofBigEndian (bs : Bytes) : toBigEndian bs.length (ofBigEndian bs) = bs := by
  induction bs using List.reverseRecOn with
  | nil => rfl
  | append_singleton bs b ih =>
    have hb : b.toNat < 256 := b.toNat_lt
    rw [List.length_append, List.length_singleton, toBigEndian, ofBigEndian_append]
    have hhigh : (ofBigEndian bs * 256 + b.toNat) / 256 = ofBigEndian bs := by omega
    have hlow : UInt8.ofNat (ofBigEndian bs * 256 + b.toNat) = b := by
      apply UInt8.toNat_inj.1
      rw [UInt8.toNat_ofNat']
      omega
    rw [hhigh, hlow, ih]

theorem Form.spells_of_bytes {f : Form} {first : UInt8} {bs : Bytes}
    (h : ∃ w ∈ f.wide, w.first = first ∧ bs.length = w.width ∧ ofBigEndian bs < w.limit) :
    f.Spells (ofBigEndian bs) (first :: bs) := by
  obtain ⟨w, hw, rfl, hlength, hlimit⟩ := h
  have hspells := Form.Spells.wide hw hlimit
  rwa [← hlength, toBigEndian_ofBigEndian] at hspells

/-- The forms of the heads that a payload in its shortest form is made of. -/
def Head.Spelled (bytes : Bytes) : Head → Prop
  | .unsigned n => Form.unsigned.Spells n bytes
  | .signed n => 0 ≤ n → Form.positive.Spells n.toNat bytes
  | .array n => Form.array.Spells n bytes
  | _ => True

/-- A first byte in the range of a form spells a small number. -/
theorem Form.spells_of_first {f : Form} {n : Nat} (hbase : f.base ≤ n)
    (hsmall : n < f.base + f.small) : f.Spells (n - f.base) [UInt8.ofNat n] := by
  have hspells : f.Spells (n - f.base) [UInt8.ofNat (f.base + (n - f.base))] :=
    .small (by omega)
  rwa [Nat.add_sub_cancel' hbase] at hspells

theorem Head.spelled_signed {first : UInt8} {bs : Bytes} {size : Nat}
    (h : ∃ w ∈ Form.positive.wide, w.first = first ∧ bs.length = w.width ∧ size = 2 * w.limit) :
    (Head.signed (twosComplement size (ofBigEndian bs))).Spelled (first :: bs) := by
  obtain ⟨w, hw, hfirst, hlength, rfl⟩ := h
  intro hsign
  unfold twosComplement at hsign ⊢
  have hlt := ofBigEndian_lt bs
  rw [hlength] at hlt
  have hwidth : 256 ^ w.width = 2 * w.limit := by fin_cases hw <;> rfl
  split_ifs at hsign ⊢ with hlow
  · exact Form.spells_of_bytes ⟨w, hw, hfirst, hlength, by omega⟩
  · omega

/-- What is read as a head is one of its forms. -/
theorem readHead_spelled {head : Head} (h : readHead bytes = some (head, [])) : head.Spelled bytes := by
  cases bytes with
  | nil => cases h
  | cons b bs =>
    obtain ⟨n, hb, rfl⟩ : ∃ n < 256, b = UInt8.ofNat n := ⟨b.toNat, b.toNat_lt, by simp⟩
    have hn : (UInt8.ofNat n).toNat = n := by simp; omega
    unfold readHead at h
    dsimp only at h
    rw [hn] at h
    split_ifs at h with hword hmap harray htext hnegative
    · cases h
      exact Form.spells_of_first (f := .unsigned) (Nat.zero_le n) (by change n < 0 + 0x80; omega)
    · cases h
      trivial
    · cases h
      exact Form.spells_of_first (f := .array) (by change 0x90 ≤ n; omega)
        (by change n < 0x90 + 16; omega)
    · cases h
      trivial
    · cases h
      intro hsign
      omega
    · have hlow : 0xc0 ≤ n := by omega
      have hhigh : n < 0xe0 := by omega
      interval_cases n
      all_goals first
        | (cases h; done)
        | (cases h; trivial)
        | obtain ⟨hlength, rfl⟩ := readNumber_eq_some_nil h
      all_goals
        have hlt := ofBigEndian_lt bs
        rw [hlength] at hlt
      all_goals first
        | trivial
        | exact Form.spells_of_bytes (f := .unsigned) (by simp [Form.unsigned, hlength]; omega)
        | exact Form.spells_of_bytes (f := .array) (by simp [Form.array, hlength]; omega)
        | exact Head.spelled_signed
            (by simp [Form.positive, hlength, UInt8.size, UInt16.size, UInt32.size, UInt64.size])

theorem Form.unsigned_lt {n : Nat} (h : Form.unsigned.Spells n bytes) : n < UInt64.size := by
  cases h with
  | small h => exact Nat.lt_trans h (by decide)
  | wide hw h => fin_cases hw <;> exact Nat.lt_of_lt_of_le h (by decide)

theorem Form.positive_lt {n : Nat} (h : Form.positive.Spells n bytes) : n < UInt64.size := by
  cases h with
  | small h => exact absurd h (Nat.not_lt_zero n)
  | wide hw h => fin_cases hw <;> exact Nat.lt_of_lt_of_le h (by decide)

theorem readId_spelled {id : TxId} (h : readId bytes = some (id, [])) : IdSpelled id bytes := by
  obtain ⟨⟨head, rest⟩, hhead, hid⟩ := Option.bind_eq_some_iff.1 h
  cases head with
  | unsigned n =>
    cases hid
    have hspells : Form.unsigned.Spells n bytes := readHead_spelled hhead
    have hn : (UInt64.ofNat n).toNat = n := Nat.mod_eq_of_lt (Form.unsigned_lt hspells)
    exact .inl (by rwa [hn])
  | signed n =>
    dsimp only at hid
    split_ifs at hid with hsign
    cases hid
    have hspells : Form.positive.Spells n.toNat bytes := readHead_spelled hhead hsign
    have hn : (UInt64.ofNat n.toNat).toNat = n.toNat := Nat.mod_eq_of_lt (Form.positive_lt hspells)
    exact .inr (by rwa [hn])
  | _ => cases hid

theorem SpellsIds.spelled {ids : List TxId} (h : SpellsIds ids bytes) : IdsSpelled ids bytes := by
  obtain ⟨head, parts, rfl, hhead, hparts⟩ := h
  have harray : Form.array.Spells ids.length head := readHead_spelled hhead.reads
  exact .array harray (hparts.imp fun _ _ hid => readId_spelled hid.reads)

/-- The shortest form of a payload is one of its spellings. -/
theorem SpellsPayload.spelled {p : Payload} (h : SpellsPayload p bytes) : p.Spelled bytes := by
  obtain ⟨head, id, upperBound, excluded, invalid, rfl, hhead, hid, hbound, hexcluded, hinvalid⟩ := h
  have harray : Form.array.Spells 4 head := readHead_spelled hhead.reads
  exact .array harray (readId_spelled hid.reads) (readId_spelled hbound.reads) hexcluded.spelled
    hinvalid.spelled

end MessagePack

end CellStore
