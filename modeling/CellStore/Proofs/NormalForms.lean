import CellStore.Proofs.Formats

/-! # Transactions in their normal form

Whatever spelling a transaction is read from, its sets come out in order and with each id once. They
come from lists whose lengths fit in a head, so the transaction can be written again, and the bytes in
which it is written are one of its spellings.
-/
namespace CellStore

namespace IdSet

theorem place_length_le (id : TxId) (l : List TxId) : (place id l).length ≤ l.length + 1 := by
  induction l with
  | nil => exact Nat.le_refl _
  | cons x xs ih =>
    unfold place
    split_ifs
    · exact Nat.le_refl _
    · exact Nat.le_succ _
    · exact Nat.succ_le_succ ih

theorem ofList_length_le (l : List TxId) : (ofList l).ids.length ≤ l.length := by
  induction l with
  | nil => exact Nat.le_refl _
  | cons id ids ih => exact (place_length_le id (ofList ids).ids).trans (Nat.succ_le_succ ih)

end IdSet

theorem Payload.Fits.normalised {p : Payload} (h : p.Fits) : (ofTransaction p.transaction).Fits where
  excluded := Nat.lt_of_le_of_lt (IdSet.ofList_length_le p.excluded) h.excluded
  invalid := Nat.lt_of_le_of_lt (IdSet.ofList_length_le p.invalid) h.invalid

namespace Codec

open MessagePack

/-- With a format that conforms all spellings of a payload are the same transaction, and what is
read is in order and is read back from the bytes in which it is written. -/
theorem ofWire_normalises {w : Wire} (hw : w.Conforms) :
    (∀ (p : Payload) (bytes : Bytes), p.Spelled bytes → ∀ rest, (ofWire w).decode (bytes ++ rest) =
      .ok (.ofLists p.id p.upperBound p.excluded p.invalid)) ∧
    ∀ (bytes : Bytes) (t : Transaction), (ofWire w).decode bytes = .ok t →
      t.excluded.ids.Pairwise (· < ·) ∧ t.invalid.ids.Pairwise (· < ·) ∧
        (ofWire w).decode ((ofWire w).encode t) = .ok t := by
  constructor
  · intro p bytes h rest
    exact ofWire_reads hw h rest
  · intro bytes t h
    refine ⟨t.excluded.increasing, t.invalid.increasing, ?_⟩
    obtain ⟨p, rest, hread, rfl⟩ := ofWire_decode_ok_iff.1 h
    have hwritten := (hw.writes _ (hw.fits _ _ _ hread).normalised).spelled
    have hback := ofWire_reads hw hwritten []
    rwa [List.append_nil, Payload.ofTransaction_transaction] at hback

/-- A payload is read from each of its spellings, whatever comes after, as the transaction with its
ids in order and each of them once. Whatever is read is in order too, and it is read back from the
bytes in which it is written. -/
theorem messagePack_normalises :
    (∀ (p : Payload) (bytes : Bytes), p.Spelled bytes → ∀ rest, messagePack.decode (bytes ++ rest) =
      .ok (.ofLists p.id p.upperBound p.excluded p.invalid)) ∧
    ∀ (bytes : Bytes) (t : Transaction), messagePack.decode bytes = .ok t →
      t.excluded.ids.Pairwise (· < ·) ∧ t.invalid.ids.Pairwise (· < ·) ∧
        messagePack.decode (messagePack.encode t) = .ok t :=
  ofWire_normalises wire_conforms

/-- A payload with ids out of order and more than once. -/
def shuffled : Payload := ⟨5, 20, [9, 9, 7], [3, 3]⟩

/-- The payload as a map with its parts out of order, an unknown entry, and wide numbers. -/
def shuffledMap : Bytes :=
  [0xde, 0, 5] ++
    (([0xa7] ++ Field.invalid.key) ++ ([0xc4, 2, 3, 3] ++
    ([0xa1, 0x78] ++ ([0xca, 0, 0, 0, 0] ++
    (([0xd9, 2] ++ Field.id.key) ++ ([0xd1, 0, 5] ++
    (([0xa8] ++ Field.excluded.key) ++ ([0xdc, 0, 3, 9, 0xcc, 9, 7] ++
    (([0xc4, 22] ++ Field.upperBound.key) ++ ([0xcf, 0, 0, 0, 0, 0, 0, 0, 20] ++ []))))))))))

theorem shuffled_spelled : shuffled.Spelled shuffledMap := by
  have hkey (f : Field) {head : Bytes}
      (h : Form.text.Spells f.key.length head ∨ Form.binary.Spells f.key.length head) :
      KeySpelled (some f) (head ++ f.key) := by
    rw [← f.ofKey?_key]
    exact .name ⟨head, rfl, h⟩
  have hother : StringSpelled [0x78] [0xa1, 0x78] := ⟨[0xa1], rfl, .inl (.small (by decide))⟩
  have hpacked : Form.binary.Spells ([3, 3] : Bytes).length [0xc4, 2] :=
    .wide (w := ⟨0xc4, 1, 2 ^ 8⟩) (by simp [Form.binary]) (by decide)
  have hid : IdSpelled 5 [0xd1, 0, 5] :=
    .inr (.wide (w := ⟨0xd1, 2, 2 ^ 15⟩) (by simp [Form.positive]) (by decide))
  have hcount : Form.array.Spells ([9, 9, 7] : List TxId).length [0xdc, 0, 3] :=
    .wide (w := ⟨0xdc, 2, 2 ^ 16⟩) (by simp [Form.array]) (by decide)
  have hids : List.Forall₂ IdSpelled [9, 9, 7] [[9], [0xcc, 9], [7]] :=
    .cons (.inl (.small (by decide)))
      (.cons (.inl (.wide (w := ⟨0xcc, 1, 2 ^ 8⟩) (by simp [Form.unsigned]) (by decide)))
        (.cons (.inl (.small (by decide))) .nil))
  have hbound : IdSpelled 20 [0xcf, 0, 0, 0, 0, 0, 0, 0, 20] :=
    .inl (.wide (w := ⟨0xcf, 8, 2 ^ 64⟩) (by simp [Form.unsigned]) (by decide))
  have hshort : Form.text.Spells Field.id.key.length [0xd9, 2] :=
    .wide (w := ⟨0xd9, 1, 2 ^ 8⟩) (by simp [Form.text]) (by decide)
  have hlong : Form.binary.Spells Field.upperBound.key.length [0xc4, 22] :=
    .wide (w := ⟨0xc4, 1, 2 ^ 8⟩) (by simp [Form.binary]) (by decide)
  refine .map (n := 5) (.wide (w := ⟨0xde, 2, 2 ^ 16⟩) (by simp [Form.map]) (by decide)) ?_
    (by decide : [Field.invalid, .id, .excluded, .upperBound].Perm Field.all)
  refine .part (hkey .invalid (.inl (.small (by decide)))) (.packed hpacked) ?_
  refine .unknown (.name hother) (.number (by decide)) ?_
  refine .part (hkey .id (.inl hshort)) hid ?_
  refine .part (hkey .excluded (.inl (.small (by decide)))) (.array hcount hids) ?_
  exact .part (hkey .upperBound (.inr hlong)) hbound .nil

theorem messagePack_normalises_shuffled :
    shuffled.Spelled shuffledMap ∧
      messagePack.decode (shuffledMap ++ [0xff]) = .ok (.ofLists 5 20 [9, 9, 7] [3, 3]) ∧
      (Transaction.ofLists 5 20 [9, 9, 7] [3, 3]).excluded.ids.Pairwise (· < ·) ∧
      (Transaction.ofLists 5 20 [9, 9, 7] [3, 3]).invalid.ids.Pairwise (· < ·) ∧
      messagePack.decode (messagePack.encode (.ofLists 5 20 [9, 9, 7] [3, 3])) =
        .ok (.ofLists 5 20 [9, 9, 7] [3, 3]) := by
  have hread := messagePack_normalises.1 shuffled shuffledMap shuffled_spelled [0xff]
  exact ⟨shuffled_spelled, hread, messagePack_normalises.2 _ _ hread⟩

end Codec

end CellStore
