import Mathlib.Data.List.Perm.Subperm
import CellStore.Proofs.Sweeping

/-! # Limits on versions

The columns of a run never go back, so a cursor that enters the next cell is still in its column or
starts afresh, whatever it has passed over. Hence a limit on the versions of a column leaves the
newest of those that there are without it, and tombstones have no effect but to take away what they
mask: a sweep that applies them does with the versions that are left what it does with the whole run.
-/
namespace CellStore

namespace Cursor

variable {k k₁ : Cursor} {c d : Cell} {cs : List Cell}

/-- The cells are in the column of the cursor or in later ones. -/
def Ahead (k : Cursor) (cells : List Cell) : Prop :=
  ∀ c ∈ cells, ∀ column, k.column = some column → (compare column c.column).isLE = true

theorem start_ahead (cells : List Cell) : ({} : Cursor).Ahead cells := by
  intro c _ column h
  cases h

theorem ahead_of_enter (hcells : Run.Ordered (c :: cs)) (hk : k₁.column = some c.column) :
    k₁.Ahead cs := by
  intro d hd column hcolumn
  cases hk.symm.trans hcolumn
  rcases Cell.column_le_of_key_lt ((List.pairwise_cons.1 hcells).1 d hd) with hlt | heq
  · exact Ordering.isLE_of_eq_lt hlt
  · rw [heq, Std.ReflOrd.compare_self]
    rfl

/-- A cursor that is in the column of a cell stays as it is in that column, and in another one it
is where it would be without the cell. -/
theorem Ahead.enter_next (h : k.Ahead (c :: cs)) (hcells : Run.Ordered (c :: cs))
    (hk : k₁.column = some c.column) (hd : d ∈ cs) :
    k₁.enter d = if d.column = c.column then k₁ else k.enter d := by
  split_ifs with hcol
  · rw [enter, if_pos (hk.trans (congrArg some hcol.symm))]
  · have hfresh : k₁.column ≠ some d.column := fun heq =>
      hcol (Option.some.inj (heq.symm.trans hk))
    have hbehind : k.column ≠ some d.column := fun heq => by
      have hle := h c List.mem_cons_self _ heq
      rcases Cell.column_le_of_key_lt ((List.pairwise_cons.1 hcells).1 d hd) with hlt | heq'
      · rw [Std.OrientedCmp.gt_of_lt hlt] at hle
        cases hle
      · exact hcol heq'.symm
    rw [enter, enter, if_neg hfresh, if_neg hbehind]

theorem enter_congr (k : Cursor) (h : d.column = c.column) : k.enter d = k.enter c := by
  rw [enter, enter, h]

theorem Ahead.taken_next {m : Nat} (h : k.Ahead (c :: cs)) (hcells : Run.Ordered (c :: cs))
    (hk : k₁.column = some c.column) (htaken : k₁.taken = (k.enter c).taken + m)
    (hd : d ∈ cs) :
    (k₁.enter d).taken = (k.enter d).taken + if d.column = c.column then m else 0 := by
  rw [h.enter_next hcells hk hd]
  split_ifs with hcol
  · rw [htaken, k.enter_congr hcol]
  · rfl

end Cursor

/-- How many cells there are of the column of a cell with a newer timestamp. -/
def Cell.newerIn (cells : List Cell) (c : Cell) : Nat :=
  cells.countP fun d => d.column = c.column ∧ c.timestamp < d.timestamp

theorem Versions.allows_of_le {v : Versions} {m n : Nat} (h : v.allows n = true) (hle : m ≤ n) :
    v.allows m = true := by
  cases v with
  | all => rfl
  | atMost limit =>
    have hn : n < limit := of_decide_eq_true h
    exact decide_eq_true (Nat.lt_of_le_of_lt hle hn)

theorem Cell.newerIn_cons {c d : Cell} {cells : List Cell} (hlt : compare d.key c.key = .lt)
    (hd : d.isTombstone = false) :
    c.newerIn (d :: cells) = c.newerIn cells + if c.column = d.column then 1 else 0 := by
  have hnewer : d.column = c.column ∧ c.timestamp < d.timestamp ↔ c.column = d.column :=
    ⟨fun h => h.1.symm, fun h => ⟨h.symm, Cell.newer_of_key_lt hlt h.symm hd⟩⟩
  simp only [Cell.newerIn, List.countP_cons, hnewer, decide_eq_true_eq]

theorem Cell.newerIn_le {c : Cell} {cells cells' : List Cell} (hcells : cells.Nodup)
    (h : cells ⊆ cells') : c.newerIn cells ≤ c.newerIn cells' :=
  (List.subperm_of_subset hcells h).countP_le _

theorem Cell.newerIn_self {c : Cell} {cells : List Cell} (hcells : Run.Ordered (c :: cells)) :
    c.newerIn (c :: cells) = 0 := by
  refine List.countP_eq_zero.2 fun d hd hnewer => ?_
  obtain ⟨hcol, hlt⟩ := of_decide_eq_true hnewer
  rcases List.mem_cons.1 hd with rfl | hd
  · exact UInt64.lt_irrefl _ hlt
  · have hkey := (List.pairwise_cons.1 hcells).1 d hd
    exact Std.OrientedCmp.not_lt_of_lt hkey (Cell.key_lt_of_newer hcol hlt)

variable {caller : Option (Cell → Bool)}

theorem Filter.step_predicate (caller : Option (Cell → Bool)) (c : Cell) :
    CellFilter.step (caller.map Filter.predicate) c =
      (.ok (if caller.all (· c) then .accept else .skip), caller.map .predicate) := by
  cases caller with
  | none => rfl
  | some keep => simp [CellFilter.step, Filter.step]

namespace Sweep

theorem run_predicate_cons (s : Sweep) (k : Cursor) {c : Cell} (hc : c.isTombstone = false)
    (cs : List Cell) :
    s.run k (caller.map Filter.predicate) (c :: cs) =
      if s.admits (k.enter c) c = true ∧ caller.all (· c) = true then
        keep c (s.run (k.enter c).take (caller.map Filter.predicate) cs)
      else s.run (k.enter c) (caller.map Filter.predicate) cs := by
  rw [run, if_neg (by simp [hc]), Filter.step_predicate]
  by_cases hadm : s.admits (k.enter c) c = true <;> by_cases hw : caller.all (· c) = true <;>
    simp [hadm, hw]

theorem admits_iff_limit (s : Sweep) (k : Cursor) (n : Nat) (c : Cell) :
    s.admits k c = true ↔ { s with versions := .all }.admits { k with taken := n } c = true ∧
      s.versions.allows k.taken = true := by
  simp only [admits, Cursor.isMasked, Versions.allows, Bool.and_eq_true, Bool.and_true]

/-- A limit keeps of some cells those that have few enough newer ones of their column, the ones
counted in that the cursor has taken before. -/
def Limits (s : Sweep) (k : Cursor) (all out : List Cell) : Prop :=
  ∀ c, c ∈ out ↔ c ∈ all ∧ s.versions.allows ((k.enter c).taken + c.newerIn all) = true

section

variable {s : Sweep} {k k₁ : Cursor} {x : Cell} {cs all out : List Cell}
variable (hk : k.Ahead (x :: cs)) (hcells : Run.Ordered (x :: cs)) (hall : all.Sublist cs)
  (h : s.Limits k₁ all out) (hcol : k₁.column = some x.column)
include hk hcells hall h hcol

theorem Limits.pass (htaken : k₁.taken = (k.enter x).taken) : s.Limits k all out := by
  refine fun c => (h c).trans (and_congr_right fun hc => ?_)
  rw [hk.taken_next (m := 0) hcells hcol htaken (hall.subset hc), ite_self, Nat.add_zero]

theorem Limits.take (hx : x.isTombstone = false) (hallows : s.versions.allows (k.enter x).taken = true)
    (htaken : k₁.taken = (k.enter x).taken + 1) : s.Limits k (x :: all) (x :: out) := by
  have hself : x.newerIn (x :: all) = 0 := Cell.newerIn_self (hcells.sublist (hall.cons_cons x))
  intro c
  rw [List.mem_cons, List.mem_cons, or_and_right]
  refine or_congr ?_ ((h c).trans (and_congr_right fun hc => ?_))
  · rw [iff_self_and]
    rintro rfl
    rwa [hself]
  · have hlt := (List.pairwise_cons.1 hcells).1 c (hall.subset hc)
    rw [hk.taken_next hcells hcol htaken (hall.subset hc), Cell.newerIn_cons hlt hx, Nat.add_assoc,
      Nat.add_comm (c.newerIn all)]

/-- Once a version is not taken for the limit, no older one of its column is. -/
theorem Limits.cut (hx : x.isTombstone = false) (hallows : ¬s.versions.allows (k.enter x).taken = true)
    (htaken : k₁.taken = (k.enter x).taken) : s.Limits k (x :: all) out := by
  have hself : x.newerIn (x :: all) = 0 := Cell.newerIn_self (hcells.sublist (hall.cons_cons x))
  intro c
  rw [List.mem_cons, or_and_right, or_iff_right]
  · refine (h c).trans (and_congr_right fun hc => ?_)
    have hlt := (List.pairwise_cons.1 hcells).1 c (hall.subset hc)
    rw [hk.taken_next (m := 0) hcells hcol htaken (hall.subset hc), Cell.newerIn_cons hlt hx]
    split_ifs with heq
    · rw [k.enter_congr heq]
      exact iff_of_false (fun ha => hallows (Versions.allows_of_le ha (by omega)))
        fun ha => hallows (Versions.allows_of_le ha (by omega))
    · rfl
  · rintro ⟨rfl, ha⟩
    rw [hself] at ha
    exact hallows ha

end

/-- A sweep with a predicate never fails, and of what it gives without a limit on the versions
of a column a limit keeps the newest. -/
theorem run_limited (s : Sweep) (happ : s.appliesTombstones = true) (caller : Option (Cell → Bool))
    {cells : List Cell} (hcells : Run.Ordered cells) {k : Cursor} (hk : k.Ahead cells) (n : Nat) :
    ∃ out all, s.run k (caller.map Filter.predicate) cells = (.ok out, caller.map .predicate) ∧
      { s with versions := .all }.run { k with taken := n } (caller.map Filter.predicate) cells =
        (.ok all, caller.map .predicate) ∧ s.Limits k all out := by
  induction cells generalizing k n with
  | nil => exact ⟨[], [], rfl, rfl, by simp [Limits]⟩
  | cons x cs ih =>
    obtain ⟨n', henter⟩ : ∃ n', { k with taken := n }.enter x = { k.enter x with taken := n' } := by
      unfold Cursor.enter
      split_ifs
      · exact ⟨n, rfl⟩
      · exact ⟨0, rfl⟩
    have hcs : Run.Ordered cs := (List.pairwise_cons.1 hcells).2
    have hcol := k.enter_column x
    -- Whatever becomes of the cell, the rest is gone through from a cursor in its column.
    have hrest (k₁ : Cursor) (hk₁ : k₁.column = some x.column) (m : Nat) :
        ∃ out all, s.run k₁ (caller.map Filter.predicate) cs = (.ok out, caller.map .predicate) ∧
          { s with versions := .all }.run { k₁ with taken := m } (caller.map Filter.predicate) cs =
            (.ok all, caller.map .predicate) ∧ all.Sublist cs ∧ s.Limits k₁ all out := by
      obtain ⟨out, all, hout, hall, hlimits⟩ := ih hcs (Cursor.ahead_of_enter hcells hk₁) m
      exact ⟨out, all, hout, hall, run_sublist (congrArg Prod.fst hall), hlimits⟩
    by_cases htomb : x.isTombstone = true
    · obtain ⟨out, all, hout, hall, hsub, hlimits⟩ := hrest ((k.enter x).mask x.timestamp) hcol n'
      refine ⟨out, all, ?_, ?_, hlimits.pass hk hcells hsub hcol rfl⟩
      · rw [run, if_pos htomb, if_pos happ, hout]
      · rw [run, if_pos htomb, if_pos happ, henter]
        exact hall
    · have hx : x.isTombstone = false := Bool.eq_false_iff.2 htomb
      have hadmits := s.admits_iff_limit (k.enter x) n' x
      rw [run_predicate_cons s k hx, run_predicate_cons _ _ hx, henter]
      by_cases hwanted : { s with versions := .all }.admits { k.enter x with taken := n' } x = true ∧
          caller.all (· x) = true
      · by_cases hallows : s.versions.allows (k.enter x).taken = true
        · obtain ⟨out, all, hout, hall, hsub, hlimits⟩ := hrest (k.enter x).take hcol (n' + 1)
          refine ⟨x :: out, x :: all, ?_, ?_, hlimits.take hk hcells hsub hcol hx hallows rfl⟩
          · rw [if_pos ⟨hadmits.2 ⟨hwanted.1, hallows⟩, hwanted.2⟩, hout]
            rfl
          · rw [if_pos hwanted]
            exact congrArg (keep x) hall
        · obtain ⟨out, all, hout, hall, hsub, hlimits⟩ := hrest (k.enter x) hcol (n' + 1)
          refine ⟨out, x :: all, ?_, ?_, hlimits.cut hk hcells hsub hcol hx hallows rfl⟩
          · rw [if_neg fun h => hallows (hadmits.1 h.1).2, hout]
          · rw [if_pos hwanted]
            exact congrArg (keep x) hall
      · obtain ⟨out, all, hout, hall, hsub, hlimits⟩ := hrest (k.enter x) hcol n'
        refine ⟨out, all, ?_, ?_, hlimits.pass hk hcells hsub hcol rfl⟩
        · rw [if_neg fun h => hwanted ⟨(hadmits.1 h.1).1, h.2⟩, hout]
        · rw [if_neg hwanted]
          exact hall

end Sweep

/-! ## Live versions -/

theorem Cell.masked_cons {c d : Cell} {cells : List Cell} :
    c.Masked (d :: cells) ↔ (c.column = d.column ∧ d.isTombstone = true ∧ c.timestamp ≤ d.timestamp) ∨
      c.Masked cells := by
  simp only [Cell.Masked, List.mem_cons, exists_eq_or_imp, eq_comm (a := d.column)]

namespace Cursor

/-- A cursor masks a cell for what it has seen, or some cells mask it that are to come. -/
def Masks (k : Cursor) (cells : List Cell) (c : Cell) : Prop :=
  (k.enter c).isMasked c.timestamp = true ∨ c.Masked cells

/-- In all cells to come the second cursor stands where the first one does, but has seen no
tombstone. -/
def Forgets (k k' : Cursor) (cells : List Cell) : Prop :=
  ∀ c ∈ cells, k'.enter c = { k.enter c with maskedAt := none }

theorem forgets_self (k : Cursor) (cells : List Cell) :
    k.Forgets { k with maskedAt := none } cells := by
  intro c _
  unfold enter
  split_ifs <;> rfl

variable {k k' k₁ : Cursor} {c d : Cell} {cs : List Cell}

/-- What masks a version comes before it. -/
theorem masks_self_iff (hcells : Run.Ordered (c :: cs)) (hc : c.isTombstone = false) :
    k.Masks (c :: cs) c ↔ (k.enter c).isMasked c.timestamp = true := by
  refine or_iff_left ?_
  rintro ⟨t, ht, htcol, httomb, hle⟩
  have hlt := Cell.key_lt_of_tombstone htcol httomb hc hle
  have hpre : t ∈ [] := Run.Ordered.mem_left hcells ht hlt
  cases hpre

variable (hk : k.Ahead (c :: cs)) (hcells : Run.Ordered (c :: cs)) (hcol : k₁.column = some c.column)
include hk hcells hcol

theorem Ahead.masks_next (hd : d ∈ cs)
    (hmasked : ∀ t, k₁.isMasked t = true ↔
      c.isTombstone = true ∧ t ≤ c.timestamp ∨ (k.enter c).isMasked t = true) :
    k₁.Masks cs d ↔ k.Masks (c :: cs) d := by
  rw [Masks, Masks, hk.enter_next hcells hcol hd, Cell.masked_cons]
  split_ifs with heq
  · rw [hmasked, k.enter_congr heq, and_iff_right heq, or_assoc, or_left_comm]
  · simp [heq]

theorem Forgets.pass (h : k.Forgets k' (c :: cs))
    (hsame : { k₁ with maskedAt := none } = { k.enter c with maskedAt := none }) :
    k₁.Forgets k' cs := by
  intro d hd
  rw [hk.enter_next hcells hcol hd]
  split_ifs with heq
  · rw [hsame, k'.enter_congr heq]
    exact h c List.mem_cons_self
  · exact h d (List.mem_cons_of_mem c hd)

end Cursor

namespace Sweep

theorem admits_forgetting (s : Sweep) {k : Cursor} {c : Cell} (h : k.isMasked c.timestamp = false) :
    s.admits { k with maskedAt := none } c = s.admits k c := by
  have hunmasked : k.maskedAt.any (c.timestamp ≤ ·) = false := h
  simp [admits, Cursor.isMasked, hunmasked]

variable {φ : Type} [CellFilter φ]

/-- At a version that it has not seen masked, a cursor does what one does that has seen no
tombstone, if it does so from then on. -/
theorem run_cons_forgetting (s : Sweep) {k k' : Cursor} {c : Cell} {cs cs' : List Cell} (f : φ)
    (hc : c.isTombstone = false) (hseen : (k.enter c).isMasked c.timestamp = false)
    (henter : k'.enter c = { k.enter c with maskedAt := none })
    (hrest : ∀ (k₁ : Cursor) (f : φ), k₁.column = (k.enter c).column →
      k₁.maskedAt = (k.enter c).maskedAt → s.run k₁ f cs = s.run { k₁ with maskedAt := none } f cs') :
    s.run k f (c :: cs) = s.run k' f (c :: cs') := by
  simp only [run, hc, henter, s.admits_forgetting hseen, Bool.false_eq_true, if_false]
  split_ifs
  · rcases CellFilter.step f c with ⟨- | d, f'⟩
    · rfl
    · cases d with
      | accept => exact congrArg (keep c) (hrest (k.enter c).take f' rfl rfl)
      | skip => exact hrest (k.enter c) f' rfl rfl
      | skipColumn => exact hrest (k.enter c).skipColumn f' rfl rfl
  · exact hrest (k.enter c) f rfl rfl

/-- A sweep that applies tombstones does with the versions that none of them masks what it does
with the whole run. -/
theorem run_live (s : Sweep) (happ : s.appliesTombstones = true) (live : Cell → Bool)
    {cells : List Cell} (hcells : Run.Ordered cells) {k k' : Cursor} (f : φ) (hk : k.Ahead cells)
    (hforgets : k.Forgets k' cells)
    (hlive : ∀ c ∈ cells, live c = true ↔ c.isTombstone = false ∧ ¬k.Masks cells c) :
    s.run k f cells = s.run k' f (cells.filter live) := by
  induction cells generalizing k k' f with
  | nil => rfl
  | cons c cs ih =>
    have hcs : Run.Ordered cs := (List.pairwise_cons.1 hcells).2
    have hcol := k.enter_column c
    have hthis := hlive c List.mem_cons_self
    -- The rest is gone through from a cursor that knows what masks it.
    have hrest {k₁ k₁' : Cursor} (f : φ) (hcol₁ : k₁.column = some c.column)
        (hmasked : ∀ t, k₁.isMasked t = true ↔
          c.isTombstone = true ∧ t ≤ c.timestamp ∨ (k.enter c).isMasked t = true)
        (hforgets₁ : k₁.Forgets k₁' cs) : s.run k₁ f cs = s.run k₁' f (cs.filter live) := by
      refine ih hcs f (Cursor.ahead_of_enter hcells hcol₁) hforgets₁ fun d hd => ?_
      rw [hlive d (List.mem_cons_of_mem c hd), hk.masks_next hcells hcol₁ hd hmasked]
    by_cases htomb : c.isTombstone = true
    · rw [List.filter_cons_of_neg (by simp [hthis, htomb]), run, if_pos htomb, if_pos happ]
      refine hrest f hcol (fun t => ?_) (hforgets.pass hk hcells hcol rfl)
      rw [Cursor.mask_isMasked, and_iff_right htomb]
    · have hc : c.isTombstone = false := Bool.eq_false_iff.2 htomb
      have hmasked (t : TxId) : (k.enter c).isMasked t = true ↔
          c.isTombstone = true ∧ t ≤ c.timestamp ∨ (k.enter c).isMasked t = true := by
        simp [hc]
      rw [Cursor.masks_self_iff hcells hc] at hthis
      by_cases hseen : (k.enter c).isMasked c.timestamp = true
      · have hadm : s.admits (k.enter c) c = false := by simp [admits, hseen]
        rw [List.filter_cons_of_neg (by simp [hthis, hseen]), run, if_neg htomb,
          if_neg (by simp [hadm])]
        exact hrest f hcol hmasked (hforgets.pass hk hcells hcol rfl)
      · rw [List.filter_cons_of_pos (hthis.2 ⟨hc, hseen⟩)]
        refine s.run_cons_forgetting f hc (Bool.eq_false_iff.2 hseen)
          (hforgets c List.mem_cons_self) fun k₁ f hcol₁ hsame => ?_
        refine hrest f (hcol₁.trans hcol) (fun t => ?_) (k₁.forgets_self cs)
        rw [Cursor.isMasked, hsame]
        exact hmasked t

end Sweep

end CellStore
