import CellStore.Proofs.Findings
import CellStore.Proofs.Runs
import CellStore.Sweep

/-! # What sweeps keep

A filter of a sweep is layered: it decides some cells without asking, asks a
visibility filter about the others, and leaves what that accepts to the caller. Going
through a run, the sweep knows which versions its tombstones mask and the visibility
knows all versions it could have judged, except after a hint, which drops nothing
that would be kept. So a sweep keeps what a rule on the whole run says.
-/
namespace CellStore

/-- A tombstone of the column is at or above the version. -/
def Cell.Masked (cells : List Cell) (c : Cell) : Prop :=
  ∃ t ∈ cells, t.column = c.column ∧ t.isTombstone = true ∧ c.timestamp ≤ t.timestamp

/-- Masking reaches down the column. -/
theorem Cell.Masked.anti {cells : List Cell} {c d : Cell} (h : d.Masked cells)
    (hcol : c.column = d.column) (hts : c.timestamp ≤ d.timestamp) : c.Masked cells := by
  obtain ⟨t, ht, htcol, htomb, hle⟩ := h
  exact ⟨t, ht, htcol.trans hcol.symm, htomb, UInt64.le_trans hts hle⟩

theorem TxId.le_last (id : TxId) : id ≤ TxId.last := by
  rw [UInt64.le_iff_toNat_le]
  exact Nat.le_sub_one_of_lt id.toNat_lt

theorem TimeRange.all_contains (t : TxId) : TimeRange.all.contains t = true := by
  simp [TimeRange.contains, TimeRange.all, TxId.le_last]

/-- Whether a sweep puts a version to its filter, unless a hint makes it pass the version over. -/
def Sweep.Offers (s : Sweep) (cells : List Cell) (c : Cell) : Prop :=
  c ∈ cells ∧ c.isTombstone = false ∧ (s.appliesTombstones = true → ¬c.Masked cells) ∧
    s.timeRange.contains c.timestamp = true

/-- A filter around a visibility filter: some cells it decides by itself, and of the others
it accepts those that the visibility accepts and the caller wants. -/
structure Layering (φ : Type) [CellFilter φ] where
  Holds : φ → Visibility → Prop
  /-- The decision on a cell that the visibility is not asked about. -/
  bypass : Cell → Option Bool
  wanted : Cell → Bool
  step_bypass {f : φ} {v : Visibility} {c : Cell} {b : Bool} : Holds f v → bypass c = some b →
    ∃ f', Holds f' v ∧ CellFilter.step f c = (.ok (if b then .accept else .skip), f')
  step_asks {f : φ} {v : Visibility} {c : Cell} : Holds f v → bypass c = none →
    ∃ f', Holds f' (v.step c).2 ∧ CellFilter.step f c =
      ((v.step c).1.map fun d => d.strictest (if wanted c then .accept else .skip), f')
  /-- From a cell on that is asked about, all older ones are. -/
  bypass_older {c d : Cell} : bypass c = none → d.timestamp ≤ c.timestamp → bypass d = none

namespace Decision

theorem strictest_eq_accept_iff {d : Decision} {b : Bool} :
    d.strictest (if b then .accept else .skip) = .accept ↔ d = .accept ∧ b = true := by
  cases d <;> cases b <;> decide

theorem strictest_eq_skipColumn_iff {d : Decision} {b : Bool} :
    d.strictest (if b then .accept else .skip) = .skipColumn ↔ d = .skipColumn := by
  cases d <;> cases b <;> decide

end Decision

namespace Cursor

/-- The cursor is in the last column of the cells gone through. -/
def Reached (k : Cursor) (pre : List Cell) : Prop :=
  (∀ d ∈ pre, ∃ column, k.column = some column ∧
    (compare d.column column = .lt ∨ d.column = column)) ∧
  ∀ column, k.column = some column → ∃ d ∈ pre, d.column = column

theorem enter_column (k : Cursor) (c : Cell) : (k.enter c).column = some c.column := by
  unfold enter
  split_ifs with h
  · exact h
  · rfl

theorem mask_isMasked (k : Cursor) (t u : TxId) :
    (k.mask t).isMasked u = true ↔ u ≤ t ∨ k.isMasked u = true := by
  unfold mask isMasked
  cases k.maskedAt with
  | none => simp
  | some m =>
    simp only [Option.any_some, decide_eq_true_eq]
    change (u ≤ if m ≤ t then t else m) ↔ _
    split_ifs <;> grind

variable {pre suf : List Cell} {k : Cursor} {c : Cell}

/-- A cursor that has to enter the column of a cell has not seen a cell of that column. -/
theorem Reached.enter_fresh (h : k.Reached pre) (hord : Run.Ordered (pre ++ c :: suf))
    (hk : k.column ≠ some c.column) : ∀ d ∈ pre, d.column ≠ c.column := by
  rintro d hd hdcol
  obtain ⟨column, hcolumn, hle⟩ := h.1 d hd
  obtain ⟨l, hl, hlcol⟩ := h.2 column hcolumn
  have hne : column ≠ c.column := fun heq => hk (heq ▸ hcolumn)
  rcases hle with hlt | heq
  · rcases Cell.column_le_of_key_lt (hord.lt_of_mem_left hl) with hlc | hlc
    · rw [hlcol] at hlc
      rw [hdcol] at hlt
      exact Std.OrientedCmp.not_lt_of_lt hlt hlc
    · exact hne (hlcol.symm.trans hlc)
  · exact hne (heq.symm.trans hdcol)

/-- The column of the cell that comes next is where the cursor is once it is gone through. -/
theorem reached_append (hord : Run.Ordered (pre ++ c :: suf)) (hk : k.column = some c.column) :
    k.Reached (pre ++ [c]) := by
  refine ⟨fun d hd => ⟨c.column, hk, ?_⟩, fun column hcolumn => ⟨c, by simp, ?_⟩⟩
  · rcases List.mem_append.1 hd with hd | hd
    · exact Cell.column_le_of_key_lt (hord.lt_of_mem_left hd)
    · exact .inr (congrArg Cell.column (List.mem_singleton.1 hd))
  · exact Option.some.inj (hk.symm.trans hcolumn)

end Cursor

namespace Layering

variable {φ : Type} [CellFilter φ] (L : Layering φ) (s : Sweep) (view : View) (purpose : Purpose)
variable (cells : List Cell)

/-- The versions that the visibility filter is asked about. -/
def Asks (c : Cell) : Prop := s.Offers cells c ∧ L.bypass c = none

/-- The newer ones among the versions that the visibility filter is asked about. -/
def Newer (c : Cell) : Set Cell := {d | L.Asks s cells d ∧ c.timestamp < d.timestamp}

/-- What a sweep keeps of a run. -/
def Keeps (c : Cell) : Prop :=
  s.appliesTombstones = false ∧ c.isTombstone = true ∨
    s.Offers cells c ∧ (L.bypass c = some true ∨
      L.bypass c = none ∧ L.wanted c = true ∧ view.Accepts purpose (L.Newer s cells c) c)

/-- Where a sweep stands once it has gone through the first cells. Within the column of the
cursor it knows the masked versions and, until a hint, has judged all there was to judge. -/
structure Standing (pre suf : List Cell) (k : Cursor) (v : Visibility) (judged : Set Cell) :
    Prop where
  view_eq : v.view = view
  purpose_eq : v.purpose = purpose
  follows : v.Follows judged
  within : ∀ d ∈ judged, d ∈ pre ∧ L.Asks s cells d
  masked : ∀ t, k.isMasked t = true ↔ s.appliesTombstones = true ∧
    ∃ m ∈ pre, k.column = some m.column ∧ m.isTombstone = true ∧ t ≤ m.timestamp
  complete : k.skipping = false → ∀ d ∈ pre, k.column = some d.column → L.Asks s cells d → d ∈ judged
  hint : k.skipping = true → ∀ e ∈ suf, k.column = some e.column → e.isTombstone = false →
    ¬L.Keeps s view purpose cells e

variable {L s view purpose cells} {pre suf : List Cell} {k : Cursor} {v : Visibility}
  {judged : Set Cell}
variable {c : Cell}

theorem standing_start : L.Standing s view purpose cells [] cells {} { view, purpose } ∅ where
  view_eq := rfl
  purpose_eq := rfl
  follows := rfl
  within d hd := absurd hd (Set.notMem_empty d)
  masked t := by simp [Cursor.isMasked]
  complete _ d hd := by simp at hd
  hint h := by simp at h

theorem Standing.enter (h : L.Standing s view purpose cells pre (c :: suf) k v judged)
    (hk : k.Reached pre) (hord : Run.Ordered (pre ++ c :: suf)) :
    L.Standing s view purpose cells pre (c :: suf) (k.enter c) v judged := by
  by_cases hcol : k.column = some c.column
  · rwa [Cursor.enter, if_pos hcol]
  · rw [Cursor.enter, if_neg hcol]
    have hfresh := hk.enter_fresh hord hcol
    refine { h with masked := fun t => ?_, complete := fun _ d hd hdcol => ?_, hint := fun hs => ?_ }
    · refine iff_of_false (by simp [Cursor.isMasked]) ?_
      rintro ⟨-, m, hm, hmcol, -⟩
      exact hfresh m hm (Option.some.inj hmcol).symm
    · exact absurd (Option.some.inj hdcol).symm (hfresh d hd)
    · simp at hs

theorem Standing.masked_append (h : L.Standing s view purpose cells pre (c :: suf) k v judged)
    (hmask : ¬(s.appliesTombstones = true ∧ c.isTombstone = true)) (t : TxId) :
    k.isMasked t = true ↔ s.appliesTombstones = true ∧
      ∃ m ∈ pre ++ [c], k.column = some m.column ∧ m.isTombstone = true ∧ t ≤ m.timestamp := by
  rw [h.masked]
  refine and_congr_right fun happ => ?_
  have hc : c.isTombstone = false := Bool.eq_false_iff.2 fun hc => hmask ⟨happ, hc⟩
  simp only [List.mem_append, List.mem_singleton, or_and_right, exists_or, exists_eq_left, hc,
    Bool.false_eq_true, false_and, and_false, or_false]

/-- A cell that is neither judged nor masks anything leaves the standing as it is. -/
theorem Standing.pass (h : L.Standing s view purpose cells pre (c :: suf) k v judged)
    (hmask : ¬(s.appliesTombstones = true ∧ c.isTombstone = true))
    (hasks : k.skipping = false → ¬L.Asks s cells c) :
    L.Standing s view purpose cells (pre ++ [c]) suf k v judged := by
  refine { h with within := fun d hd => ?_, masked := h.masked_append hmask,
                  complete := fun hs d hd hdcol had => ?_,
                  hint := fun hs e he => h.hint hs e (List.mem_cons_of_mem c he) }
  · exact ⟨List.mem_append_left _ (h.within d hd).1, (h.within d hd).2⟩
  · rcases List.mem_append.1 hd with hd | hd
    · exact h.complete hs d hd hdcol had
    · exact absurd (List.mem_singleton.1 hd ▸ had) (hasks hs)

/-- A tombstone masks what is older in its column. -/
theorem Standing.mask (h : L.Standing s view purpose cells pre (c :: suf) k v judged)
    (hk : k.column = some c.column) (happ : s.appliesTombstones = true)
    (hc : c.isTombstone = true) :
    L.Standing s view purpose cells (pre ++ [c]) suf (k.mask c.timestamp) v judged := by
  refine { h with within := fun d hd => ?_, masked := fun t => ?_,
                  complete := fun hs d hd hdcol had => ?_,
                  hint := fun hs e he => h.hint hs e (List.mem_cons_of_mem c he) }
  · exact ⟨List.mem_append_left _ (h.within d hd).1, (h.within d hd).2⟩
  · rw [Cursor.mask_isMasked, h.masked]
    change _ ↔ _ ∧ ∃ m ∈ pre ++ [c], k.column = some m.column ∧ _
    simp only [List.mem_append, List.mem_singleton, or_and_right, exists_or, exists_eq_left, hc, hk,
      happ, true_and, or_comm]
  · rcases List.mem_append.1 hd with hd | hd
    · exact h.complete hs d hd hdcol had
    · rw [List.mem_singleton.1 hd] at had
      exact absurd (had.1.2.1.symm.trans hc) Bool.false_ne_true

theorem Standing.comesAfter (h : L.Standing s view purpose cells pre (c :: suf) k v judged)
    (hord : Run.Ordered (pre ++ c :: suf)) : c.ComesAfter judged := by
  intro d hd
  obtain ⟨hpre, hoffer, -⟩ := h.within d hd
  have hlt := hord.lt_of_mem_left hpre
  rcases Cell.column_le_of_key_lt hlt with hcol | hcol
  · exact .inl hcol
  · exact .inr ⟨hcol, UInt64.le_of_lt (Cell.newer_of_key_lt hlt hcol hoffer.2.1)⟩

/-- In the column that the sweep is in, the versions judged are all the newer ones. -/
theorem Standing.mem_judged_iff
    (h : L.Standing s view purpose (pre ++ c :: suf) pre (c :: suf) k v judged)
    (hord : Run.Ordered (pre ++ c :: suf)) (hk : k.column = some c.column)
    (hs : k.skipping = false) {d : Cell} (hcol : d.column = c.column) :
    d ∈ judged ↔ d ∈ L.Newer s (pre ++ c :: suf) c := by
  constructor
  · intro hd
    obtain ⟨hpre, hasks⟩ := h.within d hd
    exact ⟨hasks, Cell.newer_of_key_lt (hord.lt_of_mem_left hpre) hcol hasks.1.2.1⟩
  · rintro ⟨hasks, hlt⟩
    have hpre : d ∈ pre := hord.mem_left hasks.1.1 (Cell.key_lt_of_newer hcol hlt)
    exact h.complete hs d hpre (hk.trans (congrArg some hcol.symm)) hasks

/-- A version that is judged counts as judged. -/
theorem Standing.insert_judged
    (h : L.Standing s view purpose (pre ++ c :: suf) pre (c :: suf) k v judged)
    (hs : k.skipping = false) (hc : L.Asks s (pre ++ c :: suf) c) {v' : Visibility}
    (hview : v'.view = v.view) (hpurpose : v'.purpose = v.purpose)
    (hfollows : v'.Follows (insert c judged)) :
    L.Standing s view purpose (pre ++ c :: suf) (pre ++ [c]) suf k v' (insert c judged) where
  view_eq := hview.trans h.view_eq
  purpose_eq := hpurpose.trans h.purpose_eq
  follows := hfollows
  within d hd := by
    rcases Set.mem_insert_iff.1 hd with rfl | hd
    · exact ⟨by simp, hc⟩
    · exact ⟨List.mem_append_left _ (h.within d hd).1, (h.within d hd).2⟩
  masked := h.masked_append fun hmask => by simp [hc.1.2.1] at hmask
  complete _ d hd hcol had := by
    rcases List.mem_append.1 hd with hd | hd
    · exact Set.mem_insert_of_mem c (h.complete hs d hd hcol had)
    · exact Set.mem_insert_iff.2 (.inl (List.mem_singleton.1 hd))
  hint hskip := absurd (hs.symm.trans hskip) Bool.false_ne_true

/-- Behind a version at which the visibility leaves the column, the rule keeps nothing. -/
theorem Standing.not_keeps_of_hint
    (h : L.Standing s view purpose (pre ++ c :: suf) pre (c :: suf) k v judged)
    (hord : Run.Ordered (pre ++ c :: suf)) (hk : k.column = some c.column)
    (hs : k.skipping = false) (hc : L.Asks s (pre ++ c :: suf) c) {found : Finding}
    (hfound : v.view.Finds judged c found) (hhint : v.decide c found = .skipColumn) {e : Cell}
    (he : e ∈ suf) (hcol : e.column = c.column) (hetomb : e.isTombstone = false) :
    ¬L.Keeps s view purpose (pre ++ c :: suf) e := by
  have hlt : e.timestamp < c.timestamp := by
    have hce := (List.pairwise_cons.1 (List.pairwise_append.1 hord).2.1).1 e he
    exact Cell.newer_of_key_lt hce hcol.symm hc.1.2.1
  have hasked : L.bypass e = none := L.bypass_older hc.2 (UInt64.le_of_lt hlt)
  rintro (⟨-, ht⟩ | ⟨-, hb | ⟨-, -, haccepts⟩⟩)
  · exact Bool.false_ne_true (hetomb.symm.trans ht)
  · rw [hasked] at hb
    cases hb
  · have hno := Visibility.not_accepts_of_hint hfound hhint hcol hlt
    rw [h.view_eq, h.purpose_eq] at hno
    apply hno
    apply haccepts.anti
    intro d hd hdcol _
    rcases Set.mem_insert_iff.1 hd with rfl | hd
    · exact ⟨hc, hlt⟩
    · have hnewer := (h.mem_judged_iff hord hk hs (hdcol.trans hcol)).1 hd
      exact ⟨hnewer.1, UInt64.lt_trans hlt hnewer.2⟩

/-- The visibility judges a version as the rule on the whole run does, and a hint leaves
nothing behind that the rule keeps. -/
theorem Standing.judge (h : L.Standing s view purpose (pre ++ c :: suf) pre (c :: suf) k v judged)
    (hord : Run.Ordered (pre ++ c :: suf)) (hk : k.column = some c.column) (hs : k.skipping = false)
    (hc : L.Asks s (pre ++ c :: suf) c) :
    ∃ d, (v.step c).1 = .ok d ∧
      (d = .accept ↔ view.Accepts purpose (L.Newer s (pre ++ c :: suf) c) c) ∧
      L.Standing s view purpose (pre ++ c :: suf) (pre ++ [c]) suf
        (if d = .skipColumn then k.skipColumn else k) (v.step c).2 (insert c judged) := by
  obtain ⟨found, hfound, hok, hfollows, hview, hpurpose⟩ :=
    Visibility.step_finds h.follows (h.comesAfter hord)
  have hmem {d : Cell} (hcol : d.column = c.column) := h.mem_judged_iff hord hk hs hcol
  have hkept := Visibility.decide_eq_accept_iff hfound
  rw [h.view_eq, h.purpose_eq] at hkept
  have hjudged := h.insert_judged hs hc hview hpurpose hfollows
  refine ⟨v.decide c found, hok, hkept.trans ⟨?_, ?_⟩, ?_⟩
  · exact fun ha => ha.anti fun d hd hcol _ => (hmem hcol).2 hd
  · exact fun ha => ha.anti fun d hd hcol _ => (hmem hcol).1 hd
  · split_ifs with hhint
    · refine { hjudged with complete := fun hskip => ?_, hint := ?_ }
      · exact absurd hskip.symm Bool.false_ne_true
      · intro _ e he hecol hetomb
        have hcol : e.column = c.column := (Option.some.inj (hk.symm.trans hecol)).symm
        exact h.not_keeps_of_hint hord hk hs hc hfound hhint he hcol hetomb
    · exact hjudged

/-- Where every version is wanted, a version is left to the filter if no hint skips it and
the rule on the whole run offers it. -/
theorem Standing.admits_iff
    (h : L.Standing s view purpose (pre ++ c :: suf) pre (c :: suf) k v judged)
    (hord : Run.Ordered (pre ++ c :: suf)) (hk : k.column = some c.column)
    (hall : s.versions = .all) (hc : c.isTombstone = false) :
    s.admits k c = true ↔ k.skipping = false ∧ s.Offers (pre ++ c :: suf) c := by
  have hmasked : k.isMasked c.timestamp = true ↔
      s.appliesTombstones = true ∧ c.Masked (pre ++ c :: suf) := by
    rw [h.masked]
    refine and_congr_right fun _ => ⟨?_, ?_⟩
    · rintro ⟨m, hm, hmcol, htomb, hle⟩
      exact ⟨m, List.mem_append_left _ hm, (Option.some.inj (hk.symm.trans hmcol)).symm, htomb, hle⟩
    · rintro ⟨m, hm, hmcol, htomb, hle⟩
      have hpre : m ∈ pre := hord.mem_left hm (Cell.key_lt_of_tombstone hmcol htomb hc hle)
      exact ⟨m, hpre, hk.trans (congrArg some hmcol.symm), htomb, hle⟩
  have hunmasked : k.isMasked c.timestamp = false ↔
      (s.appliesTombstones = true → ¬c.Masked (pre ++ c :: suf)) := by
    rw [← Bool.not_eq_true, hmasked, not_and]
  have hmem : c ∈ pre ++ c :: suf := by simp
  simp only [Sweep.admits, Sweep.Offers, hall, Versions.allows, Bool.and_eq_true,
    Bool.not_eq_true', hunmasked, hc, hmem, true_and, and_true, and_assoc]

variable (L s view purpose) in
/-- A sweep goes on to the rest of a run, with the cell in front if the rule keeps it. -/
def Advances (pre : List Cell) (c : Cell) (suf : List Cell) (k : Cursor) (f : φ) : Prop :=
  ∃ k' f' v' judged', L.Holds f' v' ∧ k'.column = some c.column ∧
    L.Standing s view purpose (pre ++ c :: suf) (pre ++ [c]) suf k' v' judged' ∧
    (L.Keeps s view purpose (pre ++ c :: suf) c ∧
        s.run k f (c :: suf) = Sweep.keep c (s.run k' f' suf) ∨
      ¬L.Keeps s view purpose (pre ++ c :: suf) c ∧ s.run k f (c :: suf) = s.run k' f' suf)

section

variable {f : φ} (hord : Run.Ordered (pre ++ c :: suf)) (hf : L.Holds f v)
variable (h : L.Standing s view purpose (pre ++ c :: suf) pre (c :: suf) (k.enter c) v judged)
include hf h

theorem Standing.advances_tombstone (hc : c.isTombstone = true) :
    L.Advances s view purpose pre c suf k f := by
  have hoffer : ¬s.Offers (pre ++ c :: suf) c := fun ho => by simp [ho.2.1] at hc
  have hk := k.enter_column c
  by_cases happ : s.appliesTombstones = true
  · refine ⟨(k.enter c).mask c.timestamp, f, v, judged, hf, hk, h.mask hk happ hc, .inr ⟨?_, ?_⟩⟩
    · rintro (⟨hn, -⟩ | ⟨ho, -⟩)
      · simp [happ] at hn
      · exact hoffer ho
    · simp [Sweep.run, hc, happ]
  · have hpass := h.pass (fun hm => happ hm.1) fun _ ha => hoffer ha.1
    refine ⟨k.enter c, f, v, judged, hf, hk, hpass, .inl ⟨?_, ?_⟩⟩
    · exact .inl ⟨Bool.eq_false_iff.2 happ, hc⟩
    · simp [Sweep.run, hc, happ]

theorem Standing.advances_bypass (hadm : s.admits (k.enter c) c = true)
    (hoffer : s.Offers (pre ++ c :: suf) c) {b : Bool} (hb : L.bypass c = some b) :
    L.Advances s view purpose pre c suf k f := by
  have hk := k.enter_column c
  have hc : c.isTombstone = false := hoffer.2.1
  obtain ⟨f', hf', hstep⟩ := L.step_bypass hf hb
  have hpass := h.pass (fun hm => by simp [hc] at hm) fun _ ha => by simp [ha.2] at hb
  cases b with
  | true =>
    refine ⟨(k.enter c).take, f', v, judged, hf', hk, { hpass with }, .inl ⟨?_, ?_⟩⟩
    · exact .inr ⟨hoffer, .inl hb⟩
    · simp [Sweep.run, hc, hadm, hstep]
  | false =>
    refine ⟨k.enter c, f', v, judged, hf', hk, hpass, .inr ⟨by simp [Keeps, hc, hb], ?_⟩⟩
    simp [Sweep.run, hc, hadm, hstep]

include hord

theorem Standing.advances_asked (hadm : s.admits (k.enter c) c = true)
    (hskip : (k.enter c).skipping = false) (hasks : L.Asks s (pre ++ c :: suf) c) :
    L.Advances s view purpose pre c suf k f := by
  have hk := k.enter_column c
  have hc : c.isTombstone = false := hasks.1.2.1
  obtain ⟨f', hf', hstep⟩ := L.step_asks hf hasks.2
  obtain ⟨d, hd, haccept, hnext⟩ := h.judge hord hk hskip hasks
  rw [hd] at hstep
  have hhint := Decision.strictest_eq_skipColumn_iff (d := d) (b := L.wanted c)
  have hkeeps : L.Keeps s view purpose (pre ++ c :: suf) c ↔
      d.strictest (if L.wanted c then .accept else .skip) = .accept := by
    rw [Decision.strictest_eq_accept_iff, haccept]
    simp [Keeps, hc, hasks.1, hasks.2, and_comm]
  cases hdec : d.strictest (if L.wanted c then .accept else .skip) with
  | accept =>
    rw [if_neg (by simp [← hhint, hdec])] at hnext
    refine ⟨(k.enter c).take, f', _, _, hf', hk, { hnext with }, .inl ⟨hkeeps.2 hdec, ?_⟩⟩
    simp [Sweep.run, hc, hadm, hstep, Except.map, hdec]
  | skip =>
    rw [if_neg (by simp [← hhint, hdec])] at hnext
    refine ⟨k.enter c, f', _, _, hf', hk, hnext, .inr ⟨by simp [hkeeps, hdec], ?_⟩⟩
    simp [Sweep.run, hc, hadm, hstep, Except.map, hdec]
  | skipColumn =>
    rw [if_pos (hhint.1 hdec)] at hnext
    refine ⟨(k.enter c).skipColumn, f', _, _, hf', hk, hnext, .inr ⟨by simp [hkeeps, hdec], ?_⟩⟩
    simp [Sweep.run, hc, hadm, hstep, Except.map, hdec]

/-- What one step of a sweep does. -/
theorem Standing.advances (hall : s.versions = .all) : L.Advances s view purpose pre c suf k f := by
  by_cases htomb : c.isTombstone = true
  · exact h.advances_tombstone hf htomb
  have hc : c.isTombstone = false := Bool.eq_false_iff.2 htomb
  have hk := k.enter_column c
  have hadmits := h.admits_iff hord hk hall hc
  by_cases hadm : s.admits (k.enter c) c = true
  · obtain ⟨hskip, hoffer⟩ := hadmits.1 hadm
    cases hb : L.bypass c with
    | some b => exact h.advances_bypass hf hadm hoffer hb
    | none => exact h.advances_asked hord hf hadm hskip ⟨hoffer, hb⟩
  · have hpass := h.pass (fun hm => htomb hm.2) fun hskip ha => hadm (hadmits.2 ⟨hskip, ha.1⟩)
    have hrun : s.run k f (c :: suf) = s.run (k.enter c) f suf := by simp [Sweep.run, hc, hadm]
    refine ⟨k.enter c, f, v, judged, hf, hk, hpass, .inr ⟨fun hkeeps => ?_, hrun⟩⟩
    -- An offered version that is passed over lies behind a hint, which leaves nothing to keep.
    rcases hkeeps with ⟨-, ht⟩ | hkeeps
    · exact htomb ht
    · have hskip : (k.enter c).skipping = true := by
        by_contra hskip
        exact hadm (hadmits.2 ⟨Bool.eq_false_iff.2 hskip, hkeeps.1⟩)
      exact h.hint hskip c List.mem_cons_self hk hc (.inr hkeeps)

end

/-- From any standing on, a sweep keeps what the rule on the whole run says. -/
theorem Standing.run (hall : s.versions = .all) (hord : Run.Ordered cells) {f : φ}
    (hsplit : cells = pre ++ suf) (hf : L.Holds f v)
    (h : L.Standing s view purpose cells pre suf k v judged) (hreach : k.Reached pre) :
    ∃ out f', s.run k f suf = (.ok out, f') ∧
      ∀ c, c ∈ out ↔ c ∈ suf ∧ L.Keeps s view purpose cells c := by
  induction suf generalizing pre k f v judged with
  | nil => exact ⟨[], f, rfl, by simp⟩
  | cons c suf ih =>
    subst hsplit
    obtain ⟨k', f', v', judged', hf', hk', hst, hstep⟩ := (h.enter hreach hord).advances hord hf hall
    obtain ⟨out, last, hrun, hout⟩ := ih (by simp) hf' hst (Cursor.reached_append hord hk')
    rcases hstep with ⟨hkeeps, hstep⟩ | ⟨hkeeps, hstep⟩
    · refine ⟨c :: out, last, by rw [hstep, hrun]; rfl, fun x => ?_⟩
      rw [List.mem_cons, List.mem_cons, hout, or_and_right, and_iff_left_of_imp (a := x = c)]
      rintro rfl
      exact hkeeps
    · refine ⟨out, last, by rw [hstep, hrun], fun x => ?_⟩
      rw [hout, List.mem_cons, or_and_right, or_iff_right]
      rintro ⟨rfl, hx⟩
      exact hkeeps hx

variable (L s view purpose) in
/-- A sweep of a run never fails, and it keeps what the rule says. -/
theorem run_keeps (hall : s.versions = .all) (hord : Run.Ordered cells) {f : φ}
    (hf : L.Holds f { view, purpose }) :
    ∃ out f', s.run {} f cells = (.ok out, f') ∧
      ∀ c, c ∈ out ↔ c ∈ cells ∧ L.Keeps s view purpose cells c := by
  have hreach : ({} : Cursor).Reached [] := ⟨by simp, by simp⟩
  exact standing_start.run hall hord rfl hf hreach

end Layering

/-- Whatever the filter answers, a sweep only leaves cells out. -/
theorem Sweep.run_sublist {φ : Type} [CellFilter φ] {s : Sweep} {k : Cursor} {f : φ}
    {cells out : List Cell} (h : (s.run k f cells).1 = .ok out) : out.Sublist cells := by
  induction cells generalizing k f out with
  | nil =>
    cases h
    exact .slnil
  | cons c cs ih =>
    have hkeep {r : Except Error (List Cell) × φ} (hr : ∀ {l}, r.1 = .ok l → l.Sublist cs)
        (hout : (Sweep.keep c r).1 = .ok out) : out.Sublist (c :: cs) := by
      obtain ⟨r₁, r₂⟩ := r
      cases r₁ with
      | error e => cases hout
      | ok l =>
        cases hout
        exact (hr rfl).cons_cons c
    simp only [Sweep.run] at h
    split at h
    · split at h
      · exact (ih h).cons c
      · exact hkeep ih h
    · split at h
      · split at h
        · cases h
        · exact hkeep ih h
        · exact (ih h).cons c
        · exact (ih h).cons c
      · exact (ih h).cons c

end CellStore
