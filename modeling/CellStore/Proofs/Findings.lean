import Mathlib.Data.Set.Insert
import CellStore.Visibility

/-! # What the visibility filter finds

A reader sees an id or does not, and a version passes if the reader sees its writer
and the version has not expired. The filter remembers two facts of the column it is
in: whether a version of it has passed, and the newest delete marker that did. These
suffice to find every version to be what all versions judged before it make it.
-/
namespace CellStore

/-- Whether a reader sees what an id wrote, as long as it lives. -/
def Transaction.Sees (t : Transaction) (id : TxId) : Prop :=
  id = t.id ∨ id ∉ t.excluded ∧ id ≤ t.upperBound ∧ id ∉ t.invalid

/-- Whether a version is older than the cutoff of its family. -/
def TtlTable.Expired (t : TtlTable) (now : TxId) (c : Cell) : Prop :=
  ∃ cutoff, t.cutoff c.column.family now = some cutoff ∧ c.timestamp < cutoff

namespace View

variable {v : View} {judged : Set Cell} {c d : Cell}

/-- Whether a version passes. A reader's own writes never expire for it. -/
def Passes (v : View) (c : Cell) : Prop :=
  c.timestamp = v.reader.id ∨
    c.timestamp ∉ v.reader.excluded ∧ c.timestamp ≤ v.reader.upperBound ∧
      c.timestamp ∉ v.reader.invalid ∧ ¬v.ttl.Expired v.now c

theorem any_cutoff_iff :
    (v.cutoff c.column.family).any (c.timestamp < ·) = true ↔ v.ttl.Expired v.now c := by
  simp [cutoff, TtlTable.Expired, Option.any_eq_true]

theorem obstacle_eq_none_iff : v.obstacle? (v.cutoff c.column.family) c = none ↔ v.Passes c := by
  unfold obstacle? Passes
  simp only [← any_cutoff_iff, Transaction.isExcluded, Transaction.isInvalid,
    IdSet.contains_eq_true_iff, ← UInt64.not_lt]
  split_ifs <;> simp_all

theorem Passes.sees (h : v.Passes c) : v.reader.Sees c.timestamp :=
  h.imp id fun h => ⟨h.1, h.2.1, h.2.2.1⟩

theorem passes_of_sees (h : v.reader.Sees c.timestamp) (he : ¬v.ttl.Expired v.now c) : v.Passes c :=
  h.imp id fun h => ⟨h.1, h.2.1, h.2.2, he⟩

/-- A passing delete marker that was judged before is newer than the version. -/
def Shadowed (v : View) (judged : Set Cell) (c : Cell) : Prop :=
  ∃ m ∈ judged, m.column = c.column ∧ v.Passes m ∧ m.isDeleteMarker = true ∧ c.timestamp < m.timestamp

/-- A version of the same column passed before. -/
def Preceded (v : View) (judged : Set Cell) (c : Cell) : Prop :=
  ∃ d ∈ judged, d.column = c.column ∧ v.Passes d

/-- What a version is, given the versions judged before it. -/
inductive Finds (v : View) (judged : Set Cell) (c : Cell) : Finding → Prop
  | shadowed (hs : v.Shadowed judged c) : Finds v judged c .shadowed
  | hidden (o : Obstacle) (hs : ¬v.Shadowed judged c) (hp : ¬v.Passes c) :
    Finds v judged c (.hidden o)
  | marker (hs : ¬v.Shadowed judged c) (hp : v.Passes c) (hm : c.isDeleteMarker = true) :
    Finds v judged c .marker
  | newest (hs : ¬v.Shadowed judged c) (hp : v.Passes c) (hm : c.isDeleteMarker = false)
    (hn : c.timestamp = v.reader.id ∨ ¬v.Preceded judged c) : Finds v judged c .newest
  | older (hs : ¬v.Shadowed judged c) (hp : v.Passes c) (hm : c.isDeleteMarker = false)
    (ho : c.timestamp ≠ v.reader.id) (hd : v.Preceded judged c) : Finds v judged c .older

/-- Whether a scan keeps a version, given the versions judged before it. -/
def Accepts (v : View) (purpose : Purpose) (judged : Set Cell) (c : Cell) : Prop :=
  v.Passes c ∧ ¬v.Shadowed judged c ∧
    if c.isDeleteMarker then purpose.retainsDeleteMarkers = true
    else c.timestamp = v.reader.id ∨ purpose.retainsVersions = true ∨ ¬v.Preceded judged c

/-- What a scan keeps that writes every version back. -/
theorem accepts_iff_of_compaction {purpose : Purpose} (hpurpose : purpose ≠ .userScan) :
    v.Accepts purpose judged c ↔ v.Passes c ∧ ¬v.Shadowed judged c ∧
      (c.isDeleteMarker = true → purpose = .retainDeletes) := by
  have hall : purpose.retainsVersions = true := by
    cases purpose <;> simp_all [Purpose.retainsVersions]
  have hmarkers : purpose.retainsDeleteMarkers = true ↔ purpose = .retainDeletes := by
    simp [Purpose.retainsDeleteMarkers]
  rw [Accepts, hall, hmarkers]
  refine and_congr_right fun _ => and_congr_right fun _ => ?_
  split_ifs with hm <;> simp [hm]

/-- The fewer passing versions of the column were judged, the more is kept. -/
theorem Accepts.anti {purpose : Purpose} {judged' : Set Cell} (h : v.Accepts purpose judged' c)
    (hsub : ∀ d ∈ judged, d.column = c.column → v.Passes d → d ∈ judged') :
    v.Accepts purpose judged c := by
  obtain ⟨hp, hs, hk⟩ := h
  refine ⟨hp, fun ⟨m, hm, hcol, hmp, hrest⟩ => hs ⟨m, hsub m hm hcol hmp, hcol, hmp, hrest⟩, ?_⟩
  split_ifs with hmark
  · rwa [if_pos hmark] at hk
  · rw [if_neg hmark] at hk
    exact hk.imp id (Or.imp id fun hn ⟨d, hd, hcol, hdp⟩ => hn ⟨d, hsub d hd hcol hdp, hcol, hdp⟩)

end View

/-- A cell may come next if its column is later than the columns judged so far, or is the last of
them and its timestamp is no larger than those in it. -/
def Cell.ComesAfter (c : Cell) (judged : Set Cell) : Prop :=
  ∀ d ∈ judged, compare d.column c.column = .lt ∨ d.column = c.column ∧ c.timestamp ≤ d.timestamp

namespace Place

variable {v : View} {judged : Set Cell} {c : Cell} {p : Place v} {found : Finding}

/-- The place knows what passed in its column. -/
structure Recalls (p : Place v) (judged : Set Cell) : Prop where
  satisfied : p.satisfied = true ↔ ∃ d ∈ judged, d.column = p.column ∧ v.Passes d
  deletedAt : ∀ t, p.deletedAt.any (t < ·) = true ↔
    ∃ m ∈ judged, m.column = p.column ∧ v.Passes m ∧ m.isDeleteMarker = true ∧ t < m.timestamp

/-- The place stands at the last of the cells that were judged. -/
structure Follows (p : Place v) (judged : Set Cell) : Prop extends p.Recalls judged where
  ahead : ∀ d ∈ judged,
    compare d.column p.column = .lt ∨ d.column = p.column ∧ p.previous ≤ d.timestamp
  last : ∃ d ∈ judged, d.column = p.column ∧ d.timestamp = p.previous

theorem recalls_first (h : ∀ d ∈ judged, d.column ≠ c.column) : (first v c).Recalls judged where
  satisfied := by simpa [first] using fun d hd hcol => absurd hcol (h d hd)
  deletedAt t := by simpa [first] using fun d hd hcol => absurd hcol (h d hd)

theorem find_finds (h : p.Recalls judged) (hcol : p.column = c.column) :
    v.Finds judged c (p.find c) := by
  have hshadow : p.deletedAt.any (c.timestamp < ·) = true ↔ v.Shadowed judged c := by
    rw [h.deletedAt, hcol]
    rfl
  have hbefore : p.satisfied = true ↔ v.Preceded judged c := by
    rw [h.satisfied, hcol]
    rfl
  unfold find
  by_cases hs : p.deletedAt.any (c.timestamp < ·) = true
  · rw [if_pos hs]
    exact .shadowed (hshadow.1 hs)
  · rw [if_neg hs]
    have hs' : ¬v.Shadowed judged c := fun h => hs (hshadow.2 h)
    rw [p.cutoff_eq, hcol]
    cases ho : v.obstacle? (v.cutoff c.column.family) c with
    | some o => exact .hidden o hs' fun hp => by simp [View.obstacle_eq_none_iff.2 hp] at ho
    | none =>
      have hp := View.obstacle_eq_none_iff.1 ho
      dsimp only
      split_ifs with hm hn
      · exact .marker hs' hp hm
      · refine .newest hs' hp (by simpa using hm) ?_
        rw [← hbefore]
        simpa using hn
      · have hn' : c.timestamp ≠ v.reader.id ∧ p.satisfied = true := by simpa using hn
        exact .older hs' hp (by simpa using hm) hn'.1 (hbefore.1 hn'.2)

/-- Once a cell is judged the place knows of it too. No marker before one that is not shadowed is
newer, so it is the newest one to remember. -/
theorem recalls_after (h : p.Recalls judged) (hcol : p.column = c.column)
    (hf : v.Finds judged c found) :
    (p.after c found).Recalls (insert c judged) := by
  cases hf with
  | shadowed hs =>
    obtain ⟨m, hm, hmcol, hmp, hmd, hlt⟩ := hs
    constructor
    · simp only [after, h.satisfied, Set.mem_insert_iff, exists_eq_or_imp, hcol, true_and]
      exact ⟨.inr, fun _ => ⟨m, hm, hmcol, hmp⟩⟩
    · intro t
      simp only [after, h.deletedAt, Set.mem_insert_iff, exists_eq_or_imp, hcol, true_and]
      exact ⟨.inr, Or.rec (fun ht => ⟨m, hm, hmcol, hmp, hmd, UInt64.lt_trans ht.2.2 hlt⟩) id⟩
  | hidden o hs hp =>
    constructor
    · simp [after, h.satisfied, hcol, hp]
    · simp [after, h.deletedAt, hcol, hp]
  | marker hs hp hm =>
    constructor
    · simp [after, hcol, hp]
    · intro t
      simp only [after, Option.any_some, decide_eq_true_eq, Set.mem_insert_iff, exists_eq_or_imp,
        hcol, hp, hm, true_and]
      refine ⟨.inl, Or.rec id ?_⟩
      rintro ⟨d, hd, hdcol, hdp, hdm, ht⟩
      by_contra hlt
      refine hs ⟨d, hd, hdcol, hdp, hdm, UInt64.lt_of_le_of_lt (UInt64.not_lt.1 hlt) ht⟩
  | newest hs hp hm hn =>
    constructor
    · simp [after, hcol, hp]
    · simp [after, h.deletedAt, hcol, hm]
  | older hs hp hm ho hd =>
    constructor
    · simp only [after, h.satisfied, Set.mem_insert_iff, exists_eq_or_imp, hcol, true_and]
      exact ⟨.inr, fun _ => hd⟩
    · simp [after, h.deletedAt, hcol, hm]

theorem after_column (p : Place v) (c : Cell) (found : Finding) :
    (p.after c found).column = p.column := by
  cases found <;> rfl

theorem after_previous (p : Place v) (c : Cell) (found : Finding) :
    (p.after c found).previous = p.previous := by
  cases found <;> rfl

end Place

namespace Visibility

variable {f : Visibility} {judged : Set Cell} {c : Cell}

/-- The filter has judged these cells and no others. -/
def Follows (f : Visibility) (judged : Set Cell) : Prop :=
  match f.place with
  | none => judged = ∅
  | some p => p.Follows judged

theorem enter_recalls (h : f.Follows judged) (hc : c.ComesAfter judged) :
    ∃ p, Place.enter f.place c = .ok p ∧ p.column = c.column ∧ p.previous = c.timestamp ∧
      p.Recalls judged := by
  unfold Follows at h
  cases hp : f.place with
  | none =>
    rw [hp] at h
    refine ⟨_, rfl, rfl, rfl, Place.recalls_first ?_⟩
    simp [h]
  | some p =>
    simp only [hp] at h
    obtain ⟨l, hl, hlcol, hlts⟩ := h.last
    cases hcmp : compare p.column c.column with
    | lt =>
      refine ⟨_, Place.enter_of_lt hcmp, rfl, rfl, Place.recalls_first fun d hd hdcol => ?_⟩
      rcases h.ahead d hd with hlt | ⟨heq, -⟩
      · rw [hdcol] at hlt
        exact Std.OrientedCmp.not_lt_of_lt hcmp hlt
      · rw [← heq, hdcol, Std.ReflOrd.compare_self] at hcmp
        cases hcmp
    | eq =>
      have hcol : p.column = c.column := Std.compare_eq_iff_eq.1 hcmp
      have hle : c.timestamp ≤ p.previous := by
        rcases hc l hl with hlt | ⟨-, hle⟩
        · rw [hlcol, hcmp] at hlt
          cases hlt
        · rwa [← hlts]
      simp only [Place.enter, hcmp, hle, if_true]
      exact ⟨_, rfl, hcol, rfl, h.satisfied, h.deletedAt⟩
    | gt =>
      exfalso
      rcases hc l hl with hlt | ⟨heq, -⟩
      · rw [hlcol, hcmp] at hlt
        cases hlt
      · rw [← hlcol, heq, Std.ReflOrd.compare_self] at hcmp
        cases hcmp

/-- A cell that may come next is judged by what it is among the cells before it. -/
theorem step_finds (h : f.Follows judged) (hc : c.ComesAfter judged) :
    ∃ found, f.view.Finds judged c found ∧ (f.step c).1 = .ok (f.decide c found) ∧
      (f.step c).2.Follows (insert c judged) ∧ (f.step c).2.view = f.view ∧
        (f.step c).2.purpose = f.purpose := by
  obtain ⟨p, hp, hcol, hprev, hrec⟩ := enter_recalls h hc
  have hfinds := Place.find_finds hrec hcol
  refine ⟨p.find c, hfinds, ?_⟩
  rw [step_of_enter hp]
  simp only [Follows, and_self, and_true, true_and]
  have hafter := Place.recalls_after hrec hcol hfinds
  refine ⟨hafter, ?_, ⟨c, Set.mem_insert c judged, ?_, ?_⟩⟩
  · intro d hd
    rw [Place.after_column, Place.after_previous, hcol, hprev]
    rcases Set.mem_insert_iff.1 hd with rfl | hd
    · exact .inr ⟨rfl, UInt64.le_refl _⟩
    · exact hc d hd
  · rw [Place.after_column, hcol]
  · rw [Place.after_previous, hprev]

/-- A version is kept if it is found to be one that the scan accepts. -/
theorem decide_eq_accept_iff {found : Finding} (hf : f.view.Finds judged c found) :
    f.decide c found = .accept ↔ f.view.Accepts f.purpose judged c := by
  cases hf with
  | shadowed hs => simp [decide, View.Accepts, hs]
  | hidden o hs hp => simp [decide, View.Accepts, hp]
  | marker hs hp hm =>
    simp only [decide, View.Accepts, hp, hs, hm, if_true, not_false_eq_true, true_and]
    split_ifs <;> simp_all
  | newest hs hp hm hn =>
    simp only [decide, View.Accepts, hp, hs, hm, true_and, not_false_eq_true, true_iff,
      Bool.false_eq_true, if_false]
    exact hn.imp id .inr
  | older hs hp hm ho hd =>
    simp only [decide, View.Accepts, hp, hs, hm, ho, hd, true_and, not_false_eq_true,
      Bool.false_eq_true, if_false, false_or, not_true_eq_false, or_false]
    split_ifs <;> simp_all

/-- A scan that leaves a column misses nothing: no older version of it would be kept. -/
theorem not_accepts_of_hint {found : Finding} (hf : f.view.Finds judged c found)
    (hd : f.decide c found = .skipColumn) {e : Cell} (hcol : e.column = c.column)
    (hlt : e.timestamp < c.timestamp) : ¬f.view.Accepts f.purpose (insert c judged) e := by
  rintro ⟨hp, hs, hk⟩
  cases hf with
  | shadowed hsc =>
    obtain ⟨m, hm, hmcol, hmp, hmd, hmt⟩ := hsc
    exact hs ⟨m, Set.mem_insert_of_mem c hm, hmcol.trans hcol.symm, hmp, hmd, UInt64.lt_trans hlt hmt⟩
  | hidden o hsc hpc => simp [decide] at hd
  | marker hsc hpc hmc => exact hs ⟨c, Set.mem_insert c judged, hcol.symm, hpc, hmc, hlt⟩
  | newest hsc hpc hmc hn => simp [decide] at hd
  | older hsc hpc hmc ho hdc =>
    simp only [decide] at hd
    have hpre : f.view.Preceded (insert c judged) e := ⟨c, Set.mem_insert c judged, hcol.symm, hpc⟩
    split_ifs at hd with hr hid
    -- The own id is not below the cell, so no own write is older than it.
    have hown : e.timestamp ≠ f.view.reader.id := by
      rintro he
      exact hid (he ▸ hlt)
    split_ifs at hk with hme
    · cases hpur : f.purpose <;> simp_all [Purpose.retainsVersions, Purpose.retainsDeleteMarkers]
    · simp_all

end Visibility

end CellStore
