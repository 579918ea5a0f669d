import CellStore.Proofs.Rejections

/-! # Hints among ties

The hint to leave a column is given on the strength of timestamps: what is older than a delete
marker is hidden by it, and a read that has its answer shows nothing older. A version with the
timestamp of the marker is not older than it. It comes after the hint all the same, and a scan that
keeps every version accepts it, as a read does with its own write. That is all the hint ever misses.
-/
namespace CellStore

namespace View

variable {v : View} {judged judged' : Set Cell} {c d : Cell}

theorem passes_tied (hcol : d.column = c.column) (ht : d.timestamp = c.timestamp) :
    v.Passes d ↔ v.Passes c := by
  unfold Passes TtlTable.Expired
  rw [hcol, ht]

/-- Cells of the column that are no newer hide nothing of its versions. -/
theorem shadowed_tied (hsub : judged ⊆ judged')
    (hnew : ∀ m ∈ judged', m.column = c.column → m ∈ judged ∨ m.timestamp ≤ c.timestamp)
    (hcol : d.column = c.column) (ht : d.timestamp = c.timestamp) :
    v.Shadowed judged' d ↔ v.Shadowed judged c := by
  unfold Shadowed
  rw [hcol, ht]
  constructor
  · rintro ⟨m, hm, hmcol, hmp, hmd, hlt⟩
    rcases hnew m hm hmcol with hm | hle
    · exact ⟨m, hm, hmcol, hmp, hmd, hlt⟩
    · exact absurd hlt (UInt64.not_lt.2 hle)
  · rintro ⟨m, hm, hrest⟩
    exact ⟨m, hsub hm, hrest⟩

end View

namespace Visibility

variable {f : Visibility} {judged judged' : Set Cell} {c d : Cell} {found : Finding}

/-- What is accepted of a column although there was a hint to leave it: behind a delete marker that
counts, the versions tied with it, if the scan keeps them all or the reader wrote them. -/
theorem accepts_behind_hint_iff (hf : f.view.Finds judged c found) (hd : f.decide c found = .skipColumn)
    (hsub : insert c judged ⊆ judged')
    (hnew : ∀ m ∈ judged', m.column = c.column → m ∈ judged ∨ m.timestamp ≤ c.timestamp)
    (hcol : d.column = c.column) (hle : d.timestamp ≤ c.timestamp) :
    f.view.Accepts f.purpose judged' d ↔
      c.isDeleteMarker = true ∧ ¬f.view.Shadowed judged c ∧ d.timestamp = c.timestamp ∧
        d.isDeleteMarker = false ∧ (f.purpose = .dropDeletes ∨ c.timestamp = f.view.reader.id) := by
  by_cases ht : d.timestamp = c.timestamp
  · have hpasses : f.view.Passes d ↔ f.view.Passes c := View.passes_tied hcol ht
    have hshadowed : f.view.Shadowed judged' d ↔ f.view.Shadowed judged c :=
      View.shadowed_tied (fun m hm => hsub (Set.mem_insert_of_mem c hm)) hnew hcol ht
    have hpreceded (hp : f.view.Passes c) : f.view.Preceded judged' d :=
      ⟨c, hsub (Set.mem_insert c judged), hcol.symm, hp⟩
    unfold View.Accepts
    rw [hpasses, hshadowed]
    cases hf with
    | shadowed hs => simp [hs]
    | hidden o hs hp => simp [decide] at hd
    | marker hs hp hm =>
      cases hpur : f.purpose <;> cases hmark : d.isDeleteMarker <;>
        simp_all [decide, Purpose.retainsDeleteMarkers, Purpose.retainsVersions]
    | newest hs hp hm hn => simp [decide] at hd
    | older hs hp hm ho hb =>
      cases hpur : f.purpose <;> cases hmark : d.isDeleteMarker <;>
        simp_all [decide, Purpose.retainsDeleteMarkers, Purpose.retainsVersions]
  · have hlt : d.timestamp < c.timestamp := UInt64.lt_of_le_of_ne hle ht
    have hnot := not_accepts_of_hint hf hd hcol hlt
    refine ⟨fun haccepts => ?_, fun hall => absurd hall.2.2.1 ht⟩
    exact absurd (haccepts.anti fun m hm _ _ => hsub hm) hnot

/-- A new filter decides on all cells of a stream if and only if they are in store order. -/
theorem feed_ok_iff (v : View) (purpose : Purpose) (cells : List Cell) :
    (∀ answer ∈ (CellFilter.feed (fresh v purpose) cells).1, answer.isOk = true) ↔
      Cell.InStoreOrder cells := by
  have hfollows : (fresh v purpose).Follows ∅ := rfl
  rw [hfollows.feed_ok_iff]
  exact and_iff_right fun c _ d hd => absurd hd (Set.notMem_empty d)

/-- Of whatever a new filter is fed without an error, a cell behind a hint to leave its column is
accepted if and only if the hint was given at a delete marker that nothing hides, the cell is a version
with the same timestamp, and either the scan drops the markers or marker and version are the reader's
own. -/
theorem hint_misses_iff (v : View) (purpose : Purpose) {before between after : List Cell} {c d : Cell}
    (hok : ∀ answer ∈ (CellFilter.feed (fresh v purpose) (before ++ c :: between ++ d :: after)).1,
      answer.isOk = true)
    (hhint : (CellFilter.feed (fresh v purpose) (before ++ c :: between ++ d :: after)).1[before.length]? =
      some (.ok .skipColumn))
    (hcol : d.column = c.column) :
    (CellFilter.feed (fresh v purpose)
        (before ++ c :: between ++ d :: after)).1[(before ++ c :: between).length]? =
          some (.ok .accept) ↔
      c.isDeleteMarker = true ∧ ¬v.Shadowed {m | m ∈ before} c ∧ d.timestamp = c.timestamp ∧
        d.isDeleteMarker = false ∧ (purpose = .dropDeletes ∨ c.timestamp = v.reader.id) := by
  have hstore := (feed_ok_iff v purpose _).1 hok
  have hsplit : before ++ c :: between ++ d :: after = before ++ c :: (between ++ d :: after) := by simp
  obtain ⟨found, hfound, hanswer⟩ := feed_finds v purpose (hsplit ▸ hstore)
  obtain ⟨decision, hdecision, haccepts⟩ := feed_accepts v purpose hstore
  have hleaves : (fresh v purpose).decide c found = .skipColumn := by
    rw [hsplit, CellFilter.feed_answer] at hhint
    exact Except.ok.inj (hanswer.symm.trans (Option.some.inj hhint))
  have hlater : (CellFilter.feed (fresh v purpose)
      (before ++ c :: between ++ d :: after)).1[(before ++ c :: between).length]? =
        some (.ok decision) := by
    rw [CellFilter.feed_answer]
    exact congrArg some hdecision
  -- What comes after the hint is in its column no newer than its cell, and so hides no tied version.
  have hnewer (m : Cell) (hm : m ∈ between ++ d :: after) (hmcol : m.column = c.column) :
      m.timestamp ≤ c.timestamp := by
    rw [hsplit] at hstore
    have hbehind := (List.pairwise_cons.1 (List.pairwise_append.1 hstore).2.1).1 m hm
    rcases Cell.storeOrder_isLE.1 hbehind with hlt | ⟨-, hle⟩
    · simp [hmcol] at hlt
    · exact hle
  have hsub : insert c {m | m ∈ before} ⊆ {m | m ∈ before ++ c :: between} := by
    intro m hm
    rcases Set.mem_insert_iff.1 hm with rfl | hm
    · simp
    · exact List.mem_append_left _ hm
  rw [hlater, Option.some.injEq, Except.ok.injEq, haccepts]
  refine accepts_behind_hint_iff (f := fresh v purpose) hfound hleaves hsub ?_ hcol
    (hnewer d (by simp) hcol)
  intro m hm hmcol
  rcases List.mem_append.1 hm with hm | hm
  · exact .inl hm
  rcases List.mem_cons.1 hm with rfl | hm
  · exact .inr (UInt64.le_refl _)
  · exact .inr (hnewer m (List.mem_append_left _ hm) hmcol)

/-- What transaction 20 deletes. -/
def ownMarker : Cell := ⟨⟨[1], [2], [3]⟩, 20, [], [Tag.deleteMarker]⟩

/-- What transaction 20 writes there. -/
def ownVersion : Cell := { ownMarker with value := [7], tags := [] }

theorem hint_misses_iff_own :
    (∀ answer ∈ (CellFilter.feed (fresh .ofTwenty .userScan) [ownMarker, ownVersion]).1,
      answer.isOk = true) ∧
    (CellFilter.feed (fresh .ofTwenty .userScan) [ownMarker, ownVersion]).1[0]? =
      some (.ok .skipColumn) ∧
    ownVersion.column = ownMarker.column ∧
    ((CellFilter.feed (fresh .ofTwenty .userScan) [ownMarker, ownVersion]).1[1]? =
        some (.ok .accept) ↔
      ownMarker.isDeleteMarker = true ∧ ¬View.ofTwenty.Shadowed {m | m ∈ []} ownMarker ∧
        ownVersion.timestamp = ownMarker.timestamp ∧ ownVersion.isDeleteMarker = false ∧
        (Purpose.userScan = .dropDeletes ∨ ownMarker.timestamp = View.ofTwenty.reader.id)) := by
  have hok : ∀ answer ∈ (CellFilter.feed (fresh .ofTwenty .userScan) [ownMarker, ownVersion]).1,
      answer.isOk = true := by
    decide
  exact ⟨hok, rfl, rfl, @hint_misses_iff .ofTwenty .userScan [] [] [] _ _ hok rfl rfl⟩

/-- A read leaves the column at the reader's own delete marker and then shows what the reader wrote
with the same timestamp. A compaction leaves the column at a delete marker and then keeps the version
tied with it. Hosts that heed these hints lose both versions. -/
theorem hint_misses_tied_versions :
    (CellFilter.feed (fresh .ofTwenty .userScan) [ownMarker, ownVersion]).1 =
      [.ok .skipColumn, .ok .accept] ∧
    CellFilter.scan false none (fresh .ofTwenty .userScan) [ownMarker, ownVersion] = .ok [ownVersion] ∧
    CellFilter.scan true none (fresh .ofTwenty .userScan) [ownMarker, ownVersion] = .ok [] ∧
    (CellFilter.feed (fresh .ofTwenty .dropDeletes) tiedStream).1 =
      [.ok .accept, .ok .skip, .ok .skipColumn, .ok .accept, .ok .skipColumn, .ok .skip, .ok .accept] ∧
    CellFilter.scan false none (fresh .ofTwenty .dropDeletes) tiedStream ≠
      CellFilter.scan true none (fresh .ofTwenty .dropDeletes) tiedStream := by
  decide

end Visibility

end CellStore
