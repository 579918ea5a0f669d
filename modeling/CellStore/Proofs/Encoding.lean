import Mathlib.Data.List.Forall2
import Mathlib.Data.List.Induction
import Mathlib.Tactic.IntervalCases
import Mathlib.Tactic.SplitIfs
import CellStore.Codec

/-! # Encodings of payloads

A reader of MessagePack takes what it needs from the front of the bytes and does not look at
the rest, so what it reads stays the same whatever comes after. A payload is written in its
shortest form: an array of four parts, with every number and every length in as few bytes as
a reader would take it in.
-/
namespace CellStore

namespace IdSet

theorem place_of_lt {id : TxId} {l : List TxId} (h : ∀ a ∈ l, id < a) : place id l = id :: l := by
  cases l with
  | nil => rfl
  | cons x xs => simp [place, h x]

theorem ids_ofList {l : List TxId} (h : l.Pairwise (· < ·)) : (ofList l).ids = l := by
  induction l with
  | nil => rfl
  | cons id ids ih =>
    rw [List.pairwise_cons] at h
    change place id (ofList ids).ids = id :: ids
    rw [ih h.2, place_of_lt h.1]

/-- A set is what its list builds. -/
theorem ofList_ids (s : IdSet) : ofList s.ids = s := by
  obtain ⟨ids, hids⟩ := s
  have hlist := ids_ofList hids
  cases hset : ofList ids
  simp_all

end IdSet

namespace MessagePack

/-! ## Readers -/

/-- A reader gives what the bytes begin with, and the bytes after it. -/
abbrev Reader (α : Type) := Bytes → Option (α × Bytes)

/-- A reader that does not look at the bytes it leaves. -/
def Streams {α : Type} (read : Reader α) : Prop :=
  ∀ ⦃bs a rest⦄, read bs = some (a, rest) → ∀ more, read (bs ++ more) = some (a, rest ++ more)

namespace Streams

variable {α β : Type} {read : Reader α} {a b : α} {bs front more rest : Bytes}

theorem pure (a : α) : Streams fun bs => some (a, bs) := by
  rintro bs a rest h more
  cases h
  rfl

theorem fail : Streams fun _ => (none : Option (α × Bytes)) := by
  rintro bs a rest h
  cases h

theorem bind {next : α × Bytes → Option (β × Bytes)} (h : Streams read)
    (hnext : ∀ a, Streams fun bs => next (a, bs)) : Streams fun bs => (read bs).bind next := by
  intro bs b rest hread more
  obtain ⟨⟨a, middle⟩, hfirst, hsecond⟩ := Option.bind_eq_some_iff.1 hread
  simp only [h hfirst more, Option.bind_some]
  exact hnext a hsecond more

theorem map (f : α → β) (h : Streams read) :
    Streams fun bs => (read bs).map fun p => (f p.1, p.2) := by
  intro bs b rest hread more
  obtain ⟨⟨a, middle⟩, hfirst, hmap⟩ := Option.map_eq_some_iff.1 hread
  cases hmap
  simp only [h hfirst more, Option.map_some]

theorem append (h : Streams read) (hread : read bs = some (a, [])) (more : Bytes) :
    read (bs ++ more) = some (a, more) :=
  h hread more

end Streams

theorem take?_eq_some_iff {n : Nat} {bs front rest : Bytes} :
    take? n bs = some (front, rest) ↔ bs = front ++ rest ∧ front.length = n := by
  constructor
  · intro h
    induction n generalizing bs front with
    | zero =>
      cases h
      exact ⟨rfl, rfl⟩
    | succ n ih =>
      cases bs with
      | nil => cases h
      | cons b bs =>
        obtain ⟨⟨front, rest⟩, htake, hcons⟩ := Option.map_eq_some_iff.1 h
        cases hcons
        obtain ⟨rfl, rfl⟩ := ih htake
        exact ⟨rfl, rfl⟩
  · rintro ⟨rfl, rfl⟩
    exact take?_append front rest

theorem take?_streams (n : Nat) : Streams (take? n) := by
  intro bs front rest h more
  obtain ⟨rfl, hlength⟩ := take?_eq_some_iff.1 h
  exact take?_eq_some_iff.2 ⟨List.append_assoc front rest more, hlength⟩

theorem readNumber_streams (width : Nat) (head : Nat → Head) : Streams (readNumber width head) :=
  (take?_streams width).map fun front => head (ofBigEndian front)

/-! ## Big-endian numbers -/

theorem ofBigEndian_append (bs : Bytes) (b : UInt8) :
    ofBigEndian (bs ++ [b]) = ofBigEndian bs * 256 + b.toNat := by
  simp [ofBigEndian]

theorem ofBigEndian_lt (bs : Bytes) : ofBigEndian bs < 256 ^ bs.length := by
  induction bs using List.reverseRecOn with
  | nil => simp [ofBigEndian]
  | append_singleton bs b ih =>
    have hb : b.toNat < 256 := b.toNat_lt
    rw [ofBigEndian_append, List.length_append, List.length_singleton, Nat.pow_succ]
    omega

theorem ofBigEndian_toBigEndian (w n : Nat) : ofBigEndian (toBigEndian w n) = n % 256 ^ w := by
  induction w generalizing n with
  | zero => simp [toBigEndian, ofBigEndian, Nat.mod_one]
  | succ w ih =>
    have hlow : (UInt8.ofNat n).toNat = n % 256 := by simp
    rw [toBigEndian, ofBigEndian_append, ih, hlow, Nat.pow_succ, Nat.mul_comm (256 ^ w) 256,
      Nat.mod_mul]
    omega

theorem readNumber_toBigEndian {w n : Nat} (head : Nat → Head) (h : n < 256 ^ w) :
    readNumber w head (toBigEndian w n) = some (head n, []) := by
  have htake : take? w (toBigEndian w n) = some (toBigEndian w n, []) :=
    take?_eq_some_iff.2 ⟨by simp, toBigEndian_length w n⟩
  simp only [readNumber, htake, Option.map_some, ofBigEndian_toBigEndian, Nat.mod_eq_of_lt h]

theorem readNumber_eq_some_nil {w : Nat} {head : Nat → Head} {bs : Bytes} {h : Head}
    (hread : readNumber w head bs = some (h, [])) :
    bs.length = w ∧ h = head (ofBigEndian bs) := by
  obtain ⟨⟨front, rest⟩, htake, hmap⟩ := Option.map_eq_some_iff.1 hread
  cases hmap
  obtain ⟨rfl, hlength⟩ := take?_eq_some_iff.1 htake
  exact ⟨by simpa using hlength, by simp⟩

/-! ## Heads -/

theorem writeUnsigned_length (n : Nat) : (writeUnsigned n).length =
    if n < 0x80 then 1 else if n < UInt8.size then 2 else if n < UInt16.size then 3
    else if n < UInt32.size then 5 else 9 := by
  unfold writeUnsigned
  split_ifs <;> simp

theorem writeArray_length (n : Nat) :
    (writeArray n).length = if n < 16 then 1 else if n < UInt16.size then 3 else 5 := by
  unfold writeArray
  split_ifs <;> simp

theorem writeUnsigned_length_mono {m n : Nat} (h : m ≤ n) :
    (writeUnsigned m).length ≤ (writeUnsigned n).length := by
  rw [writeUnsigned_length, writeUnsigned_length]
  split_ifs <;> omega

/-- How many bytes it takes at least to say a number or the length of an array. -/
def Head.leastLength : Head → Nat
  | .unsigned n => (writeUnsigned n).length
  | .signed n => (writeUnsigned n.toNat).length
  | .array n => (writeArray n).length
  | _ => 0

theorem writeUnsigned_length_le {w n : Nat} (hw : w = 1 ∨ w = 2 ∨ w = 4 ∨ w = 8)
    (hn : n < 256 ^ w) : (writeUnsigned n).length ≤ w + 1 := by
  rw [writeUnsigned_length]
  rcases hw with rfl | rfl | rfl | rfl <;> simp only [UInt8.size, UInt16.size, UInt32.size] <;>
    split_ifs <;> omega

theorem writeUnsigned_twosComplement_length_le {w n size : Nat}
    (hw : w = 1 ∨ w = 2 ∨ w = 4 ∨ w = 8) (hn : n < 256 ^ w) (hsize : 256 ^ w ≤ size) :
    (writeUnsigned (twosComplement size n).toNat).length ≤ w + 1 := by
  have hle : (twosComplement size n).toNat ≤ n := by
    unfold twosComplement
    split_ifs <;> omega
  exact (writeUnsigned_length_mono hle).trans (writeUnsigned_length_le hw hn)

theorem writeArray_length_le {w n : Nat} (hw : w = 2 ∨ w = 4) (hn : n < 256 ^ w) :
    (writeArray n).length ≤ w + 1 := by
  rw [writeArray_length]
  rcases hw with rfl | rfl <;> simp only [UInt16.size] <;> split_ifs <;> omega

/-- How many ids or bytes follow a head that a list of ids can have. -/
def Head.count : Head → Nat
  | .array n | .binary n => n
  | _ => 0

/-- A head that is said in no fewer bytes than it takes, and a count that fits in 32 bits. -/
structure Head.Fits (width : Nat) (head : Head) : Prop where
  least : head.leastLength ≤ width + 1
  count : head.count < UInt32.size

/-- The first byte of a head decides how wide the number after it is and what it stands for, and
nothing is said in fewer bytes than it takes. -/
theorem readHead_cons (b : UInt8) :
    (∃ w head, (∀ n < 256 ^ w, (head n).Fits w) ∧
      ∀ bs, readHead (b :: bs) = readNumber w head bs) ∨ ∀ bs, readHead (b :: bs) = none := by
  have hb : b.toNat < 256 := b.toNat_lt
  have hnone : 0 < UInt32.size := by decide
  unfold readHead
  dsimp only
  generalize b.toNat = n at hb ⊢
  split_ifs with hword hmap harray htext hnegative
  · refine .inl ⟨0, fun _ => .unsigned n, fun _ _ => ⟨?_, hnone⟩, fun _ => rfl⟩
    rw [Head.leastLength, writeUnsigned_length, if_pos hword]
  · exact .inl ⟨0, fun _ => .map (n - 0x80), fun _ _ => ⟨Nat.zero_le _, hnone⟩, fun _ => rfl⟩
  · refine .inl ⟨0, fun _ => .array (n - 0x90), fun _ _ => ⟨?_, ?_⟩, fun _ => rfl⟩
    · rw [Head.leastLength, writeArray_length, if_pos (by omega)]
    · simp only [Head.count, UInt32.size]
      omega
  · exact .inl ⟨0, fun _ => .text (n - 0xa0), fun _ _ => ⟨Nat.zero_le _, hnone⟩, fun _ => rfl⟩
  · refine .inl ⟨0, fun _ => .signed (n - 0x100), fun _ _ => ⟨?_, hnone⟩, fun _ => rfl⟩
    have hzero : ((n : Int) - 0x100).toNat = 0 := by omega
    rw [Head.leastLength, hzero, writeUnsigned_length, if_pos (by decide)]
  · have hlow : 0xc0 ≤ n := by omega
    have hhigh : n < 0xe0 := by omega
    -- No range is left: each of these bytes is a head of its own.
    interval_cases n
    all_goals first
      | exact .inr fun _ => rfl
      | refine .inl ⟨_, _, fun n hn => ?_, fun _ => rfl⟩
      | refine .inl ⟨0, fun _ => _, fun n hn => ?_, fun _ => rfl⟩
    all_goals first
      | exact ⟨Nat.zero_le _, hnone⟩
      | exact ⟨writeUnsigned_length_le (by decide) hn, hnone⟩
      | exact ⟨writeUnsigned_twosComplement_length_le (by decide) hn (by decide), hnone⟩
      | exact ⟨Nat.zero_le _, Nat.lt_of_lt_of_le hn (by decide)⟩
      | exact ⟨writeArray_length_le (by decide) hn, Nat.lt_of_lt_of_le hn (by decide)⟩

theorem readHead_streams : Streams readHead := by
  rintro (- | ⟨b, bs⟩) h rest hread more
  · cases hread
  · rcases readHead_cons b with ⟨w, head, -, hnumber⟩ | hnone
    · rw [hnumber] at hread
      rw [List.cons_append, hnumber]
      exact readNumber_streams w head hread more
    · rw [hnone] at hread
      cases hread

/-- No head is shorter than it can be. -/
theorem leastLength_le {bs : Bytes} {h : Head} (hread : readHead bs = some (h, [])) :
    h.leastLength ≤ bs.length := by
  cases bs with
  | nil => cases hread
  | cons b bs =>
    rcases readHead_cons b with ⟨w, head, hfits, hnumber⟩ | hnone
    · rw [hnumber] at hread
      obtain ⟨rfl, rfl⟩ := readNumber_eq_some_nil hread
      exact (hfits _ (ofBigEndian_lt bs)).least
    · rw [hnone] at hread
      cases hread

/-- The bytes say this to a reader, and no fewer bytes would. -/
structure Shortest {α : Type} (read : Reader α) (a : α) (bytes : Bytes) : Prop where
  reads : read bytes = some (a, [])
  least : ∀ other, read other = some (a, []) → bytes.length ≤ other.length

theorem readHead_writeUnsigned {n : Nat} (h : n < UInt64.size) :
    readHead (writeUnsigned n) = some (.unsigned n, []) := by
  unfold writeUnsigned
  split_ifs with h7 h8 h16 h32
  · have hn : (UInt8.ofNat n).toNat = n := by simp; omega
    rw [readHead, hn, if_pos h7]
  · exact readNumber_toBigEndian (w := 1) .unsigned h8
  · exact readNumber_toBigEndian (w := 2) .unsigned h16
  · exact readNumber_toBigEndian (w := 4) .unsigned h32
  · exact readNumber_toBigEndian (w := 8) .unsigned h

theorem readHead_writeArray {n : Nat} (h : n < UInt32.size) :
    readHead (writeArray n) = some (.array n, []) := by
  unfold writeArray
  split_ifs with h4 h16
  · have hn : (UInt8.ofNat (0x90 + n)).toNat = 0x90 + n := by simp; omega
    rw [readHead, hn, if_neg (by omega), if_neg (by omega), if_pos (by omega), Nat.add_sub_cancel_left]
  · exact readNumber_toBigEndian (w := 2) .array h16
  · exact readNumber_toBigEndian (w := 4) .array h

theorem writeArray_shortest {n : Nat} (h : n < UInt32.size) :
    Shortest readHead (.array n) (writeArray n) where
  reads := readHead_writeArray h
  least _ hread := leastLength_le hread

/-! ## Ids -/

theorem readId_streams : Streams readId := by
  refine readHead_streams.bind fun head => ?_
  cases head with
  | unsigned n => exact .pure (UInt64.ofNat n)
  | signed n =>
    by_cases hn : 0 ≤ n
    · simpa [hn] using Streams.pure (UInt64.ofNat n.toNat)
    · simpa [hn] using Streams.fail
  | _ => exact .fail

theorem readIds_streams (n : Nat) : Streams (readIds n) := by
  induction n with
  | zero => exact .pure []
  | succ n ih => exact readId_streams.bind fun id => ih.bind fun ids => .pure (id :: ids)

theorem readIdList_streams : Streams readIdList := by
  refine readHead_streams.bind fun head => ?_
  cases head with
  | array n => exact readIds_streams n
  | binary n => exact (take?_streams n).map fun ids => ids.map UInt8.toUInt64
  | _ => exact .fail

theorem writeId_ofNat_length_le (n : Nat) :
    (writeId (UInt64.ofNat n)).length ≤ (writeUnsigned n).length := by
  apply writeUnsigned_length_mono
  rw [UInt64.toNat_ofNat']
  exact Nat.mod_le n _

theorem writeId_shortest (id : TxId) : Shortest readId id (writeId id) where
  reads := by simp [readId, writeId, readHead_writeUnsigned id.toNat_lt]
  least other hread := by
    obtain ⟨⟨head, rest⟩, hhead, hid⟩ := Option.bind_eq_some_iff.1 hread
    cases head with
    | unsigned n =>
      cases hid
      exact (writeId_ofNat_length_le n).trans (leastLength_le hhead)
    | signed n =>
      dsimp only at hid
      split_ifs at hid
      cases hid
      exact (writeId_ofNat_length_le n.toNat).trans (leastLength_le hhead)
    | _ => cases hid

/-- The bytes are the list of these ids: the length, then one id after the other. -/
def SpellsIds (ids : List TxId) (bytes : Bytes) : Prop :=
  ∃ head parts, bytes = head ++ parts.flatten ∧ Shortest readHead (.array ids.length) head ∧
    List.Forall₂ (Shortest readId) ids parts

/-- The bytes are a payload in its shortest form: an array of its four parts. -/
def SpellsPayload (p : Payload) (bytes : Bytes) : Prop :=
  ∃ head id upperBound excluded invalid,
    bytes = head ++ (id ++ (upperBound ++ (excluded ++ invalid))) ∧
      Shortest readHead (.array 4) head ∧ Shortest readId p.id id ∧
      Shortest readId p.upperBound upperBound ∧ SpellsIds p.excluded excluded ∧
      SpellsIds p.invalid invalid

/-- The bytes are a transaction in its shortest form. -/
def Spells (t : Transaction) (bytes : Bytes) : Prop := SpellsPayload (.ofTransaction t) bytes

theorem readIds_parts {ids : List TxId} {parts : List Bytes}
    (h : List.Forall₂ (fun id part => readId part = some (id, [])) ids parts) :
    readIds ids.length parts.flatten = some (ids, []) := by
  induction h with
  | nil => rfl
  | cons hid _ ih => simp [readIds, readId_streams.append hid, ih]

theorem writeIdList_spells {ids : List TxId} (h : ids.length < UInt32.size) :
    SpellsIds ids (writeIdList ids) := by
  refine ⟨writeArray ids.length, ids.map writeId, ?_, writeArray_shortest h, ?_⟩
  · rw [writeIdList, List.flatMap_def]
  · induction ids with
    | nil => exact .nil
    | cons id ids ih => exact .cons (writeId_shortest id) (ih (by simp at h; omega))

theorem writePayload_spells {p : Payload} (hexcluded : p.excluded.length < UInt32.size)
    (hinvalid : p.invalid.length < UInt32.size) : SpellsPayload p (writePayload p) :=
  ⟨_, _, _, _, _, by simp [writePayload], writeArray_shortest (by decide), writeId_shortest p.id,
    writeId_shortest p.upperBound, writeIdList_spells hexcluded, writeIdList_spells hinvalid⟩

/-! ## Payloads -/

theorem skipAll_append {skip : Bytes → Option Bytes} {more : Bytes}
    (hskip : ∀ {bs rest}, skip bs = some rest → skip (bs ++ more) = some (rest ++ more)) {n : Nat}
    {bs rest : Bytes} (h : skipAll skip n bs = some rest) :
    skipAll skip n (bs ++ more) = some (rest ++ more) := by
  induction n generalizing bs with
  | zero =>
    cases h
    rfl
  | succ n ih =>
    obtain ⟨middle, hfirst, hrest⟩ := Option.bind_eq_some_iff.1 h
    simp only [skipAll, hskip hfirst, Option.bind_some]
    exact ih hrest

/-- What passes over a value does not look at what comes after it. -/
theorem skip_append {depth : Nat} {bs rest : Bytes} (h : skip depth bs = some rest) (more : Bytes) :
    skip depth (bs ++ more) = some (rest ++ more) := by
  induction depth generalizing bs rest with
  | zero => cases h
  | succ depth ih =>
    obtain ⟨⟨head, body⟩, hhead, hbody⟩ := Option.bind_eq_some_iff.1 h
    have htake {n : Nat} (h : (take? n body).map (·.2) = some rest) :
        (take? n (body ++ more)).map (·.2) = some (rest ++ more) := by
      obtain ⟨⟨front, rest'⟩, hfront, rfl⟩ := Option.map_eq_some_iff.1 h
      rw [take?_streams n hfront more]
      rfl
    rw [skip, readHead_streams hhead more]
    dsimp only [bind, Option.bind_some] at hbody ⊢
    cases head with
    | text n => exact htake hbody
    | binary n => exact htake hbody
    | extension n =>
      dsimp only at hbody ⊢
      split_ifs at hbody ⊢
      exact htake hbody
    | array n =>
      dsimp only at hbody ⊢
      split_ifs at hbody ⊢
      exact skipAll_append ih hbody
    | map n =>
      dsimp only at hbody ⊢
      split_ifs at hbody ⊢
      exact skipAll_append ih hbody
    | _ =>
      cases hbody
      rfl

theorem readKey_streams : Streams readKey := by
  refine readHead_streams.bind fun head => ?_
  cases head with
  | text n => exact (take?_streams n).map Field.ofKey?
  | binary n => exact (take?_streams n).map Field.ofKey?
  | unsigned n => exact .pure _
  | _ => exact .fail

theorem Parts.read_streams (p : Parts) (f : Field) : Streams (p.read f) := by
  cases f <;> unfold Parts.read <;> dsimp only <;> split_ifs
  · exact .fail
  · exact readId_streams.map fun x => { p with id := some x }
  · exact .fail
  · exact readId_streams.map fun x => { p with upperBound := some x }
  · exact .fail
  · exact readIdList_streams.map fun x => { p with excluded := some x }
  · exact .fail
  · exact readIdList_streams.map fun x => { p with invalid := some x }

theorem readEntries_streams (n : Nat) (p : Parts) : Streams (readEntries n p) := by
  induction n generalizing p with
  | zero => exact .pure p
  | succ n ih =>
    refine readKey_streams.bind fun field => ?_
    cases field with
    | some f => exact (p.read_streams f).bind fun p => ih p
    | none =>
      intro bs parts rest h more
      obtain ⟨body, hskip, hrest⟩ := Option.bind_eq_some_iff.1 h
      simp only [skip_append hskip more, bind, Option.bind_some]
      exact ih p hrest more

theorem readParts_streams : Streams readParts :=
  readId_streams.bind fun _ => readId_streams.bind fun _ => readIdList_streams.bind fun _ =>
    readIdList_streams.bind fun _ => .pure _

theorem readPayload_streams : Streams readPayload := by
  refine readHead_streams.bind fun head => ?_
  cases head with
  | array n =>
    by_cases hn : n = 4
    · subst hn
      exact readParts_streams
    · simpa [hn] using Streams.fail
  | map n =>
    refine (readEntries_streams n {}).bind fun parts => ?_
    cases hp : parts.payload? with
    | none => simpa [hp] using Streams.fail
    | some p => simpa [hp] using Streams.pure p
  | _ => exact .fail

end MessagePack

end CellStore
