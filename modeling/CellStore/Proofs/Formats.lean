import CellStore.Proofs.Spellings

/-! # What codecs rely on

A codec leaves the bytes to a format and turns the payloads of the format into transactions. What
it relies on is that payloads are written in their shortest form and read from each of their
spellings, that reading does not look at what comes after, and that the lists of what is read can
be written again. Then a transaction is read back from its bytes, whatever follows them, and
nothing at all is read from a beginning of them, for what it gave would have to be left over at
the end of the whole. MessagePack is such a format.
-/
namespace CellStore

open MessagePack

namespace Payload

/-- The lists are no longer than a head can say. -/
structure Fits (p : Payload) : Prop where
  excluded : p.excluded.length < UInt32.size
  invalid : p.invalid.length < UInt32.size

theorem ofTransaction_transaction (t : Transaction) : (ofTransaction t).transaction = t := by
  simp [transaction, ofTransaction, Transaction.ofLists, IdSet.ofList_ids]

end Payload

/-- What codecs rely on in a format. -/
structure Wire.Conforms (w : Wire) : Prop where
  writes : ∀ p : Payload, p.Fits → SpellsPayload p (w.write p)
  reads : ∀ (p : Payload) bytes, p.Spelled bytes → w.read bytes = .ok (p, [])
  streams : ∀ bytes p rest, w.read bytes = .ok (p, rest) →
    ∀ more, w.read (bytes ++ more) = .ok (p, rest ++ more)
  fits : ∀ bytes p rest, w.read bytes = .ok (p, rest) → p.Fits

namespace Codec

variable {w : Wire} (hw : w.Conforms)
include hw

theorem ofWire_reads {p : Payload} {bytes : Bytes} (h : p.Spelled bytes) (rest : Bytes) :
    (ofWire w).decode (bytes ++ rest) = .ok p.transaction :=
  ofWire_decode_ok_iff.2 ⟨p, rest, hw.streams _ _ _ (hw.reads p bytes h) rest, rfl⟩

/-- With a format that conforms a transaction is read back from its shortest form, whatever
follows, and no transaction at all is read from a mere beginning of it. -/
theorem ofWire_reads_back {t : Transaction} (hexcluded : t.excluded.ids.length < UInt32.size)
    (hinvalid : t.invalid.ids.length < UInt32.size) :
    Spells t ((ofWire w).encode t) ∧ ∀ bytes, Spells t bytes →
      (∀ rest, (ofWire w).decode (bytes ++ rest) = .ok t) ∧
        ∀ front, front <+: bytes → front ≠ bytes →
          ∃ reason, (ofWire w).decode front = .error (.decode reason) := by
  refine ⟨hw.writes _ ⟨hexcluded, hinvalid⟩, fun bytes hbytes => ⟨fun rest => ?_, ?_⟩⟩
  · rw [ofWire_reads hw hbytes.spelled, Payload.ofTransaction_transaction]
  · rintro front ⟨more, rfl⟩ hne
    have hwhole := hw.reads _ _ hbytes.spelled
    cases hfront : w.read front with
    | error reason => exact ⟨reason, ofWire_decode_error_iff.2 ⟨reason, hfront, rfl⟩⟩
    | ok read =>
      -- What the front gives is what the whole gives, with the rest left over.
      obtain ⟨p, rest⟩ := read
      rw [hw.streams _ _ _ hfront more, Except.ok.injEq, Prod.mk.injEq] at hwhole
      have hmore : more = [] := (List.append_eq_nil_iff.1 hwhole.2).2
      exact absurd (by rw [hmore, List.append_nil]) hne

end Codec

/-! ## MessagePack -/

namespace MessagePack

variable {bytes rest : Bytes}

theorem readHead_count_lt {head : Head} (h : readHead bytes = some (head, rest)) :
    head.count < UInt32.size := by
  cases bytes with
  | nil => cases h
  | cons b bs =>
    rcases readHead_cons b with ⟨w, number, hfits, hnumber⟩ | hnone
    · rw [hnumber] at h
      obtain ⟨⟨front, rest⟩, htake, hmap⟩ := Option.map_eq_some_iff.1 h
      cases hmap
      obtain ⟨-, rfl⟩ := take?_eq_some_iff.1 htake
      exact (hfits _ (ofBigEndian_lt front)).count
    · rw [hnone] at h
      cases h

theorem readIds_length {n : Nat} {ids : List TxId} (h : readIds n bytes = some (ids, rest)) :
    ids.length = n := by
  induction n generalizing bytes ids with
  | zero =>
    cases h
    rfl
  | succ n ih =>
    obtain ⟨⟨id, bs⟩, -, htail⟩ := Option.bind_eq_some_iff.1 h
    obtain ⟨⟨ids', bs'⟩, hids, hcons⟩ := Option.bind_eq_some_iff.1 htail
    cases hcons
    rw [List.length_cons, ih hids]

theorem readIdList_length_lt {ids : List TxId} (h : readIdList bytes = some (ids, rest)) :
    ids.length < UInt32.size := by
  obtain ⟨⟨head, bs⟩, hhead, hids⟩ := Option.bind_eq_some_iff.1 h
  have hcount := readHead_count_lt hhead
  cases head with
  | array n =>
    rw [readIds_length hids]
    exact hcount
  | binary n =>
    obtain ⟨⟨packed, bs'⟩, htake, hmap⟩ := Option.map_eq_some_iff.1 hids
    cases hmap
    rw [List.length_map, (take?_eq_some_iff.1 htake).2]
    exact hcount
  | _ => cases hids

/-- The lists among the parts are no longer than a head can say. -/
structure Parts.Fit (p : Parts) : Prop where
  excluded : ∀ ids ∈ p.excluded, ids.length < UInt32.size
  invalid : ∀ ids ∈ p.invalid, ids.length < UInt32.size

theorem Parts.Fit.read {p p' : Parts} {f : Field} (h : p.Fit)
    (hread : p.read f bytes = some (p', rest)) : p'.Fit := by
  cases f <;> simp only [Parts.read] at hread <;> split_ifs at hread <;>
    obtain ⟨⟨x, bs⟩, hx, hmap⟩ := Option.map_eq_some_iff.1 hread <;> cases hmap
  · exact ⟨h.excluded, h.invalid⟩
  · exact ⟨h.excluded, h.invalid⟩
  · exact ⟨by simpa using readIdList_length_lt hx, h.invalid⟩
  · exact ⟨h.excluded, by simpa using readIdList_length_lt hx⟩

theorem Parts.Fit.readEntries {p p' : Parts} {n : Nat} (h : p.Fit)
    (hread : readEntries n p bytes = some (p', rest)) : p'.Fit := by
  induction n generalizing p bytes with
  | zero =>
    cases hread
    exact h
  | succ n ih =>
    obtain ⟨⟨field, bs⟩, -, hvalue⟩ := Option.bind_eq_some_iff.1 hread
    cases field with
    | none =>
      obtain ⟨bs', -, hrest⟩ := Option.bind_eq_some_iff.1 hvalue
      exact ih h hrest
    | some f =>
      obtain ⟨⟨q, bs'⟩, hq, hrest⟩ := Option.bind_eq_some_iff.1 hvalue
      exact ih (h.read hq) hrest

theorem Parts.Fit.payload {p : Parts} {payload : Payload} (h : p.Fit)
    (hp : p.payload? = some payload) : payload.Fits := by
  obtain ⟨id, -, hp⟩ := Option.bind_eq_some_iff.1 hp
  obtain ⟨upperBound, -, hp⟩ := Option.bind_eq_some_iff.1 hp
  obtain ⟨excluded, hexcluded, hp⟩ := Option.bind_eq_some_iff.1 hp
  obtain ⟨invalid, hinvalid, hp⟩ := Option.bind_eq_some_iff.1 hp
  cases hp
  exact ⟨h.excluded _ hexcluded, h.invalid _ hinvalid⟩

theorem readParts_fits {p : Payload} (h : readParts bytes = some (p, rest)) : p.Fits := by
  obtain ⟨⟨id, bs⟩, -, h⟩ := Option.bind_eq_some_iff.1 h
  obtain ⟨⟨upperBound, bs⟩, -, h⟩ := Option.bind_eq_some_iff.1 h
  obtain ⟨⟨excluded, bs⟩, hexcluded, h⟩ := Option.bind_eq_some_iff.1 h
  obtain ⟨⟨invalid, bs⟩, hinvalid, h⟩ := Option.bind_eq_some_iff.1 h
  cases h
  exact ⟨readIdList_length_lt hexcluded, readIdList_length_lt hinvalid⟩

theorem readPayload_fits {p : Payload} (h : readPayload bytes = some (p, rest)) : p.Fits := by
  obtain ⟨⟨head, bs⟩, -, hvalue⟩ := Option.bind_eq_some_iff.1 h
  cases head with
  | array n =>
    by_cases hn : n = 4
    · subst hn
      exact readParts_fits hvalue
    · simp [hn] at hvalue
  | map n =>
    obtain ⟨⟨parts, bs'⟩, hentries, hparts⟩ := Option.bind_eq_some_iff.1 hvalue
    obtain ⟨payload, hpayload, hp⟩ := Option.bind_eq_some_iff.1 hparts
    cases hp
    have hempty : Parts.Fit {} := ⟨by simp, by simp⟩
    exact (hempty.readEntries hentries).payload hpayload
  | _ => cases hvalue

theorem wire_read_iff {p : Payload} :
    wire.read bytes = .ok (p, rest) ↔ readPayload bytes = some (p, rest) := by
  cases hread : readPayload bytes <;> simp [wire, hread]

theorem wire_conforms : wire.Conforms where
  writes _ h := writePayload_spells h.excluded h.invalid
  reads _ _ h := wire_read_iff.2 h.reads
  streams _ _ _ h more := wire_read_iff.2 (readPayload_streams (wire_read_iff.1 h) more)
  fits _ _ _ h := readPayload_fits (wire_read_iff.1 h)

end MessagePack

namespace Codec

/-- A transaction is read back from its bytes, whatever follows them, and no transaction at all
is read from a mere beginning of them. The codec writes the shortest form, and whatever else
writes it is read as well. -/
theorem messagePack_reads_back {t : Transaction} (hexcluded : t.excluded.ids.length < UInt32.size)
    (hinvalid : t.invalid.ids.length < UInt32.size) :
    Spells t (messagePack.encode t) ∧ ∀ bytes, Spells t bytes →
      (∀ rest, messagePack.decode (bytes ++ rest) = .ok t) ∧
        ∀ front, front <+: bytes → front ≠ bytes →
          ∃ reason, messagePack.decode front = .error (.decode reason) :=
  ofWire_reads_back wire_conforms hexcluded hinvalid

/-- A transaction with numbers at both ends of every width. -/
def everyWidth : Transaction :=
  .ofLists 0 TxId.last [127, 128, 255, 256, 65535, 65536, 4294967295, 4294967296] [18, 300]

theorem everyWidth_reads_back :
    messagePack.encode everyWidth =
        [0x94, 0, 0xcf, 255, 255, 255, 255, 255, 255, 255, 255,
          0x98, 127, 0xcc, 128, 0xcc, 255, 0xcd, 1, 0, 0xcd, 255, 255, 0xce, 0, 1, 0, 0,
          0xce, 255, 255, 255, 255, 0xcf, 0, 0, 0, 1, 0, 0, 0, 0, 0x92, 18, 0xcd, 1, 44] ∧
      Spells everyWidth (messagePack.encode everyWidth) ∧ ∀ bytes, Spells everyWidth bytes →
        (∀ rest, messagePack.decode (bytes ++ rest) = .ok everyWidth) ∧
          ∀ front, front <+: bytes → front ≠ bytes →
            ∃ reason, messagePack.decode front = .error (.decode reason) :=
  ⟨by decide, messagePack_reads_back (by decide) (by decide)⟩

end Codec

end CellStore
