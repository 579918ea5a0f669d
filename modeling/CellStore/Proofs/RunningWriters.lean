import CellStore.Proofs.Maintenance
import CellStore.Proofs.Passes

/-! # What running writers wrote

The settled bound of a snapshot lies below every running id, and what is above the bound is kept
unless its writer is dead. So a flush or compaction keeps what a running writer wrote, markers
included, whatever else is in the column. This fails for the id zero alone, below which there is no
bound: what bears it is treated as settled.
-/
namespace CellStore

variable {readPointer : TxId} {invalid running : List TxId} {capturedAt : Nat} {s : Snapshot}
  {ttl : TtlTable} {purpose : Purpose} {now : TxId} {before after : List Cell} {c : Cell}

namespace Snapshot

theorem of_ofLists (h : ofLists readPointer invalid running capturedAt = .ok s) :
    s.readPointer = readPointer ∧ s.invalid = .ofList invalid ∧ s.inProgress = .ofList running := by
  unfold ofLists at h
  dsimp only at h
  split at h
  · cases h
  · cases h
    exact ⟨rfl, rfl, rfl⟩

theorem upperBound_lt_iff {id : TxId} (h : id ∈ s.inProgress) : s.upperBound < id ↔ id ≠ 0 := by
  refine ⟨?_, upperBound_lt_of_mem h⟩
  rintro hlt rfl
  exact UInt64.not_lt_zero hlt

/-- With the id zero running nothing but that id is at the bound. -/
theorem upperBound_eq_zero (h : 0 ∈ s.inProgress) : s.upperBound = 0 :=
  UInt64.le_zero_iff.1 (upperBound_le_pred h)

end Snapshot

/-- Of what running writers wrote only what bears the id zero is decided on. -/
theorem Retention.feed_running (hc : c.timestamp ∈ s.inProgress) (hpurpose : purpose ≠ .userScan)
    (hcells : Cell.InStoreOrder (before ++ c :: after)) : ∃ decision,
    (CellFilter.step (CellFilter.feed (ofSnapshot s ttl purpose now) before).2 c).1 = .ok decision ∧
      (decision = .accept ↔ c.timestamp ≠ 0 ∨
        ¬ttl.Expired now c ∧ (c.isDeleteMarker = true → purpose = .retainDeletes)) := by
  obtain ⟨decision, hok, haccept⟩ := feed_decides s ttl purpose now hcells
  refine ⟨decision, hok, haccept.trans ?_⟩
  have hvalid : c.timestamp ∉ s.invalid := fun hdead => s.disjoint _ hdead hc
  by_cases h0 : c.timestamp = 0
  · have hbound : s.upperBound = 0 := Snapshot.upperBound_eq_zero (h0 ▸ hc)
    have hsettled : c.timestamp ≤ s.upperBound := by rw [h0, hbound]; exact UInt64.le_refl 0
    have hsyn : c.timestamp ≠ TxId.synthetic := by rw [h0]; decide
    have hunshadowed : ¬View.Shadowed ⟨Transaction.boundary s, ttl, now⟩
        {d | d ∈ before ∧ d.timestamp ≤ s.upperBound} c := by
      -- Nothing that is settled is newer than zero.
      rintro ⟨m, ⟨-, hm⟩, -, -, -, hlt⟩
      exact UInt64.not_lt.2 (UInt64.le_trans hm (hbound ▸ UInt64.zero_le)) hlt
    rw [View.accepts_iff_of_compaction hpurpose, Retention.boundary_passes_iff hsettled hsyn]
    simp only [UInt64.not_lt.2 hsettled, hsettled, hvalid, hunshadowed, not_not.2 h0, not_false_eq_true,
      false_and, true_and, false_or]
  · have hlt := Snapshot.upperBound_lt_of_mem hc h0
    simp [hlt, hvalid, h0]

namespace Snapshot

/-- The settled bound is no larger than the read pointer and below every running id but zero, and a
flush or compaction keeps what the writers of those ids wrote. What bears the id zero is kept if it
has not expired and is no marker that the scan lets go. -/
theorem keeps_running_iff (h : ofLists readPointer invalid running capturedAt = .ok s) :
    s.upperBound ≤ readPointer ∧ (∀ id ∈ running, (s.upperBound < id ↔ id ≠ 0)) ∧
      ∀ (ttl : TtlTable) (purpose : Purpose), purpose ≠ .userScan →
        ∀ (now : TxId) (before : List Cell) (c : Cell) (after : List Cell),
          Cell.InStoreOrder (before ++ c :: after) → c.timestamp ∈ running → ∃ decision,
            (CellFilter.feed (Retention.ofSnapshot s ttl purpose now)
                (before ++ c :: after)).1[before.length]? = some (.ok decision) ∧
              (decision = .accept ↔ c.timestamp ≠ 0 ∨
                ¬ttl.Expired now c ∧ (c.isDeleteMarker = true → purpose = .retainDeletes)) := by
  obtain ⟨hpointer, -, hrunning⟩ := of_ofLists h
  have hmem {id : TxId} (hid : id ∈ running) : id ∈ s.inProgress := by
    rw [hrunning]
    exact IdSet.mem_ofList.2 hid
  refine ⟨hpointer ▸ s.upperBound_le_readPointer, fun id hid => upperBound_lt_iff (hmem hid), ?_⟩
  intro ttl purpose hpurpose now before c after hcells hc
  obtain ⟨decision, hok, haccept⟩ := Retention.feed_running (hmem hc) hpurpose hcells
  refine ⟨decision, ?_, haccept⟩
  rw [CellFilter.feed_answer, hok]

/-- What a running writer deletes. -/
def pending : Cell := ⟨⟨[1], [2], [3]⟩, 90, [], [Tag.deleteMarker]⟩

/-- The delete between what another running writer wrote and a settled version. -/
def contended : List Cell :=
  [{ pending with timestamp := 130, tags := [] }, pending, { pending with timestamp := 80, tags := [] }]

theorem keeps_running_iff_contended : Cell.InStoreOrder contended ∧
    ∃ s, ofLists 100 [50] [130, 90] 0 = .ok s ∧ s.upperBound ≤ 100 ∧
      (∀ id ∈ [130, 90], (s.upperBound < id ↔ id ≠ 0)) ∧ ∃ decision,
        (CellFilter.feed (Retention.ofSnapshot s {} .dropDeletes 0) contended).1[1]? =
            some (.ok decision) ∧
          (decision = .accept ↔ pending.timestamp ≠ 0 ∨ ¬TtlTable.Expired {} 0 pending ∧
            (pending.isDeleteMarker = true → Purpose.dropDeletes = .retainDeletes)) := by
  have hcells : Cell.InStoreOrder contended := by decide
  obtain ⟨s, hs⟩ : ∃ s, ofLists 100 [50] [130, 90] 0 = .ok s := ⟨_, rfl⟩
  obtain ⟨hpointer, hbound, hkeeps⟩ := keeps_running_iff hs
  refine ⟨hcells, s, hs, hpointer, hbound, ?_⟩
  exact hkeeps {} .dropDeletes (by decide) 0 (contended.take 1) pending (contended.drop 2) hcells
    (by decide)

/-- The delete of a running writer with the id zero is lost to a major compaction. -/
theorem drops_running_zero : ∃ s, ofLists 100 [] [0] 0 = .ok s ∧ 0 ∈ s.inProgress ∧
    ¬s.upperBound < 0 ∧
      (CellFilter.feed (Retention.ofSnapshot s {} .dropDeletes 0)
        [⟨⟨[1], [2], [3]⟩, 0, [], [Tag.deleteMarker]⟩]).1 = [.ok .skipColumn] :=
  ⟨_, rfl, by decide, by decide, rfl⟩

end Snapshot

end CellStore
