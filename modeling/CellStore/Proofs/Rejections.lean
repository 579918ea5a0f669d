import CellStore.Proofs.Scans

/-! # Cells out of order

A visibility filter refuses a cell that sorts before the last one it judged and goes on as if it had
never seen it. What it compares a cell with is the last cell that it answered with a decision, not
the last one it was given. So a stream in any order, errors or not, is judged like the stream of those
of its cells that were not refused.
-/
namespace CellStore

namespace CellFilter

variable {φ : Type} [CellFilter φ]

/-- The cells that a filter answers with a decision. -/
def decided (f : φ) (cells : List Cell) : List Cell :=
  ((cells.zip (feed f cells).1).filter (·.2.isOk)).map Prod.fst

theorem decided_cons (f : φ) (c : Cell) (cs : List Cell) : decided f (c :: cs) =
    if (step f c).1.isOk then c :: decided (step f c).2 cs else decided (step f c).2 cs := by
  rw [decided, feed_cons, List.zip_cons_cons, List.filter_cons]
  split_ifs <;> rfl

/-- A filter that an error leaves as it was judges what is left of a stream without its errors as it
judges the stream. -/
theorem feed_decided (hkeep : ∀ (f : φ) c, (step f c).1.isOk = false → (step f c).2 = f) (f : φ)
    (cells : List Cell) :
    feed f (decided f cells) = ((feed f cells).1.filter (·.isOk), (feed f cells).2) := by
  induction cells generalizing f with
  | nil => rfl
  | cons c cs ih =>
    rw [decided_cons, feed_cons]
    cases hok : (step f c).1.isOk with
    | true => simp [feed_cons, hok, ih]
    | false => simp [hok, ih, hkeep f c hok]

end CellFilter

namespace Place

variable {v : View} {p : Place v} {c : Cell} {e : Error}

/-- A filter that stands in a column refuses what sorts before its place. -/
theorem enter_eq_error_iff : enter (some p) c = .error e ↔
    (compare c.column p.column = .lt ∨ c.column = p.column ∧ p.previous < c.timestamp) ∧
      e = .outOfOrder c.timestamp p.previous
        (if c.column = p.column then timestampIncreased else columnRegressed) := by
  cases hcmp : compare p.column c.column with
  | lt =>
    have hne : c.column ≠ p.column := fun heq => by simp [heq] at hcmp
    have hgt : compare c.column p.column ≠ .lt := Std.OrientedCmp.not_lt_of_lt hcmp
    simp [enter, hcmp, hne, hgt]
  | eq =>
    have hcol : p.column = c.column := Std.compare_eq_iff_eq.1 hcmp
    by_cases hle : c.timestamp ≤ p.previous
    · simp [enter, hcol, hle, ← UInt64.not_le]
    · simp [enter, hcol, hle, ← UInt64.not_le, eq_comm]
  | gt =>
    have hne : c.column ≠ p.column := fun heq => by simp [heq] at hcmp
    have hlt : compare c.column p.column = .lt := Std.OrientedCmp.lt_of_gt hcmp
    simp [enter, hcmp, hne, hlt, eq_comm]

theorem upTo_of_enter {p' : Place v} (h : enter (some p) c = .ok p') : p.UpTo c := by
  cases hcmp : compare p.column c.column with
  | lt => exact .inl hcmp
  | eq =>
    refine .inr ⟨Std.compare_eq_iff_eq.1 hcmp, ?_⟩
    by_contra hle
    simp [enter, hcmp, hle] at h
  | gt => simp [enter, hcmp] at h

end Place

namespace Visibility

variable {f : Visibility} {last : Option Cell} {c : Cell} {e : Error}

/-- The filter stands at the last cell it has judged, if there is one. -/
def StandsAt (f : Visibility) (last : Option Cell) : Prop :=
  f.place.map (fun p => (p.column, p.previous)) = last.map fun l => (l.column, l.timestamp)

theorem StandsAt.step_eq_error_iff (h : f.StandsAt last) : (f.step c).1 = .error e ↔
    ∃ l, last = some l ∧
      (compare c.column l.column = .lt ∨ c.column = l.column ∧ l.timestamp < c.timestamp) ∧
      e = .outOfOrder c.timestamp l.timestamp
        (if c.column = l.column then Place.timestampIncreased else Place.columnRegressed) := by
  have hstep : (f.step c).1 = .error e ↔ Place.enter f.place c = .error e := by
    cases henter : Place.enter f.place c with
    | error e' => simp [step_of_enter_error henter]
    | ok p => simp [step_of_enter henter]
  rw [hstep]
  unfold StandsAt at h
  cases last with
  | none =>
    rw [Option.map_none, Option.map_eq_none_iff] at h
    simp [h, Place.enter]
  | some l =>
    obtain ⟨p, hp, hat⟩ := Option.map_eq_some_iff.1 h
    obtain ⟨hcol, hprev⟩ := Prod.mk.inj hat
    simp only [hp, Place.enter_eq_error_iff, hcol, hprev, Option.some.injEq, exists_eq_left']

/-- An error leaves the filter as it was. -/
theorem step_state_of_error (h : (f.step c).1.isOk = false) : (f.step c).2 = f := by
  cases henter : Place.enter f.place c with
  | error e => rw [step_of_enter_error henter]
  | ok p =>
    rw [step_of_enter henter] at h
    cases h

theorem StandsAt.step (h : f.StandsAt last) (c : Cell) :
    (f.step c).2.StandsAt (if (f.step c).1.isOk then some c else last) := by
  split_ifs with hok
  · cases henter : Place.enter f.place c with
    | error e =>
      rw [step_of_enter_error henter] at hok
      cases hok
    | ok p =>
      obtain ⟨hcol, hprev⟩ := Place.enter_at henter
      rw [step_of_enter henter]
      simp [StandsAt, Place.after_column, Place.after_previous, hcol, hprev]
  · rwa [step_state_of_error (Bool.eq_false_iff.2 hok)]

theorem StandsAt.feed (h : f.StandsAt last) (cells : List Cell) :
    (CellFilter.feed f cells).2.StandsAt ((CellFilter.decided f cells).getLast?.or last) := by
  induction cells generalizing f last with
  | nil => exact h
  | cons c cs ih =>
    have hrest : (CellFilter.feed (f.step c).2 cs).2.StandsAt
        ((CellFilter.decided (f.step c).2 cs).getLast?.or
          (if (f.step c).1.isOk then some c else last)) :=
      ih (h.step c)
    have hcons : CellFilter.decided f (c :: cs) =
        if (f.step c).1.isOk then c :: CellFilter.decided (f.step c).2 cs
        else CellFilter.decided (f.step c).2 cs := CellFilter.decided_cons f c cs
    rw [hcons, CellFilter.feed_cons]
    split_ifs at hrest ⊢
    · rw [List.getLast?_cons]
      cases hlast : (CellFilter.decided (f.step c).2 cs).getLast? <;> rwa [hlast] at hrest
    · exact hrest

/-- A cell that is answered with a decision does not sort before what was judged. -/
theorem Follows.comesAfter {judged : Set Cell} (h : f.Follows judged)
    (hok : (f.step c).1.isOk = true) : c.ComesAfter judged := by
  intro d hd
  unfold Follows at h
  cases henter : Place.enter f.place c with
  | error e =>
    rw [step_of_enter_error henter] at hok
    cases hok
  | ok p' =>
    cases hp : f.place with
    | none =>
      rw [hp] at h
      subst h
      cases hd
    | some p =>
      rw [hp] at h henter
      rcases Place.upTo_of_enter henter with hlt | ⟨hcol, hle⟩
      · exact .inl ((h.ahead d hd).elim (fun hd => Std.TransCmp.lt_trans hd hlt) fun hd => hd.1 ▸ hlt)
      · rw [← hcol]
        exact (h.ahead d hd).imp id fun hd => ⟨hd.1, UInt64.le_trans hle hd.2⟩

/-- The cells of a stream are all decided on if and only if they are in store order and none of them
sorts before what was judged. -/
theorem Follows.feed_ok_iff {judged : Set Cell} (h : f.Follows judged) (cells : List Cell) :
    (∀ answer ∈ (CellFilter.feed f cells).1, answer.isOk = true) ↔
      (∀ c ∈ cells, c.ComesAfter judged) ∧ Cell.InStoreOrder cells := by
  induction cells generalizing f judged with
  | nil => simp [Cell.InStoreOrder]
  | cons c cs ih =>
    rw [CellFilter.feed_cons, List.forall_mem_cons, List.forall_mem_cons, Cell.InStoreOrder,
      List.pairwise_cons]
    have hmem (d : Cell) : d.ComesAfter (insert c judged) ↔
        d.ComesAfter judged ∧ (c.storeOrder d).isLE = true := by
      rw [Cell.storeOrder_isLE]
      simp [Cell.ComesAfter, and_comm]
    constructor
    · rintro ⟨hok, hrest⟩
      have hc := h.comesAfter hok
      obtain ⟨found, -, -, hfollows, -⟩ := step_finds h hc
      obtain ⟨hnext, hcs⟩ := (ih hfollows).1 hrest
      exact ⟨⟨hc, fun d hd => ((hmem d).1 (hnext d hd)).1⟩,
        fun d hd => ((hmem d).1 (hnext d hd)).2, hcs⟩
    · rintro ⟨⟨hc, hnext⟩, hafter, hcs⟩
      obtain ⟨found, -, hok, hfollows, -⟩ := step_finds h hc
      refine ⟨?_, (ih hfollows).2 ⟨fun d hd => (hmem d).2 ⟨hnext d hd, hafter d hd⟩, hcs⟩⟩
      change (f.step c).1.isOk = true
      rw [hok]
      rfl

/-- The filter of a view to which no cell has been put yet. -/
def fresh (v : View) (purpose : Purpose) : Visibility := { view := v, purpose }

/-- Cells out of order are refused exactly, and without a trace. Fed any cells, a new filter answers
a cell with an error if and only if the cell sorts before the last one that it answered with a
decision, and the error tells both timestamps. All other cells are judged, and the filter is left
with its counts, as if only they had been fed to it. -/
theorem feed_refuses_iff (v : View) (purpose : Purpose) (cells : List Cell) :
    (∀ before c after, cells = before ++ c :: after → ∃ answer,
      (CellFilter.feed (fresh v purpose) cells).1[before.length]? = some answer ∧
      ∀ e, answer = .error e ↔ ∃ l, (CellFilter.decided (fresh v purpose) before).getLast? = some l ∧
        (compare c.column l.column = .lt ∨ c.column = l.column ∧ l.timestamp < c.timestamp) ∧
        e = .outOfOrder c.timestamp l.timestamp
          (if c.column = l.column then Place.timestampIncreased else Place.columnRegressed)) ∧
    CellFilter.feed (fresh v purpose) (CellFilter.decided (fresh v purpose) cells) =
      ((CellFilter.feed (fresh v purpose) cells).1.filter (·.isOk),
        (CellFilter.feed (fresh v purpose) cells).2) := by
  constructor
  · rintro before c after rfl
    refine ⟨_, CellFilter.feed_answer _ before c after, fun e => ?_⟩
    have hfresh : (fresh v purpose).StandsAt none := rfl
    have hat := hfresh.feed before
    rw [Option.or_none] at hat
    exact hat.step_eq_error_iff
  · exact CellFilter.feed_decided (fun _ _ => step_state_of_error) _ cells

/-- A version and a later one of its column, an older one, and versions of an earlier and of a later
row. -/
def disordered : List Cell :=
  [⟨⟨[2], [2], [3]⟩, 10, [7], []⟩, ⟨⟨[2], [2], [3]⟩, 12, [7], []⟩, ⟨⟨[2], [2], [3]⟩, 9, [7], []⟩,
    ⟨⟨[1, 9], [2], [3]⟩, 8, [7], []⟩, ⟨⟨[2, 0], [2], [3]⟩, 11, [7], []⟩]

example : (CellFilter.feed (fresh .ofTwenty .dropDeletes) disordered).1 =
    [.ok .accept, .error (.outOfOrder 12 10 Place.timestampIncreased), .ok .skip,
      .error (.outOfOrder 8 9 Place.columnRegressed), .ok .accept] := rfl

end Visibility

end CellStore
