import CellStore.Proofs.Findings

/-! # Judging a stream

A visibility filter is fed the cells of a stream one by one and remembers only its place among
them. Of a stream in store order it accepts exactly the cells that a rule on the stream picks.
The rule looks at the cells before a cell, at all of them and whether or not they were accepted,
and reckons ages in numbers without bound. The filter stops at both ends of the word instead,
which makes no difference to what expires.
-/
namespace CellStore

namespace Cell

/-- Columns do not go back along the cells, and timestamps do not rise within a column. -/
def InStoreOrder (cells : List Cell) : Prop := cells.Pairwise fun a b => (a.storeOrder b).isLE = true

instance (cells : List Cell) : Decidable (InStoreOrder cells) :=
  inferInstanceAs (Decidable (List.Pairwise _ cells))

variable {a b c : Cell} {judged : Set Cell}

theorem storeOrder_isLE : (a.storeOrder b).isLE = true ↔
    compare a.column b.column = .lt ∨ a.column = b.column ∧ b.timestamp ≤ a.timestamp := by
  rw [storeOrder, Ordering.isLE_iff_eq_lt_or_eq_eq, Ordering.then_eq_lt, Ordering.then_eq_eq,
    or_assoc, ← and_or_left, Std.compare_eq_iff_eq, ← Ordering.isLE_iff_eq_lt_or_eq_eq,
    Std.isLE_compare]

theorem comesAfter_insert (h : c.ComesAfter judged) (ha : (a.storeOrder c).isLE = true) :
    c.ComesAfter (insert a judged) := by
  intro d hd
  rcases Set.mem_insert_iff.1 hd with rfl | hd
  · exact storeOrder_isLE.1 ha
  · exact h d hd

end Cell

/-- A version is expired if its family has a limit and the version is older than that. -/
theorem TtlTable.expired_iff {t : TtlTable} {now : TxId} {c : Cell} : t.Expired now c ↔
    t.millis c.column.family ≠ 0 ∧
      c.timestamp.toNat + t.millis c.column.family * Tick.perMilli < now.toNat := by
  have hnow := now.toNat_lt
  unfold Expired cutoff
  cases hmillis : t.millis c.column.family with
  | zero => simp
  | succ n =>
    simp only [Option.some.injEq, exists_eq_left', UInt64.lt_iff_toNat_lt, TxId.saturatingSub_toNat,
      Tick.ofMillis_toNat, Tick.perMilli, UInt64.size]
    omega

theorem CellFilter.feed_answer {φ : Type} [CellFilter φ] (f : φ) (before : List Cell) (c : Cell)
    (after : List Cell) :
    (feed f (before ++ c :: after)).1[before.length]? = some (step (feed f before).2 c).1 := by
  rw [feed_append, feed_cons, List.getElem?_append_right (by simp)]
  simp

namespace Visibility

variable {f : Visibility} {judged : Set Cell} {before after cells : List Cell} {c : Cell}

/-- Fed some cells in store order, the filter has judged all of them. -/
theorem Follows.feed (h : f.Follows judged) (hnext : ∀ c ∈ cells, c.ComesAfter judged)
    (hcells : Cell.InStoreOrder cells) :
    (CellFilter.feed f cells).2.Follows (judged ∪ {d | d ∈ cells}) ∧
      (CellFilter.feed f cells).2.view = f.view ∧
        (CellFilter.feed f cells).2.purpose = f.purpose := by
  induction cells generalizing f judged with
  | nil => simpa using h
  | cons c cs ih =>
    rw [List.forall_mem_cons] at hnext
    rw [Cell.InStoreOrder, List.pairwise_cons] at hcells
    obtain ⟨found, -, -, hfollows, hview, hpurpose⟩ := step_finds h hnext.1
    have hrest : ∀ d ∈ cs, d.ComesAfter (insert c judged) := by
      intro d hd
      exact Cell.comesAfter_insert (hnext.2 d hd) (hcells.1 d hd)
    have hset : judged ∪ {d | d ∈ c :: cs} = insert c judged ∪ {d | d ∈ cs} := by
      ext d
      simp only [Set.mem_union, Set.mem_insert_iff, Set.mem_ofPred_eq, List.mem_cons]
      rw [or_left_comm, or_assoc]
    rw [CellFilter.feed_cons, hset, ← hview, ← hpurpose]
    exact ih hfollows hrest hcells.2

theorem decide_congr {g : Visibility} (hview : f.view = g.view) (hpurpose : f.purpose = g.purpose)
    (c : Cell) (found : Finding) : f.decide c found = g.decide c found := by
  cases found <;> simp only [decide, hview, hpurpose]

/-- A new filter judges a cell by the cells that it was fed before. -/
theorem feed_finds (v : View) (purpose : Purpose)
    (h : Cell.InStoreOrder (before ++ c :: after)) :
    ∃ found, v.Finds {d | d ∈ before} c found ∧
      (CellFilter.step (CellFilter.feed ({ view := v, purpose } : Visibility) before).2 c).1 =
        .ok (decide { view := v, purpose } c found) := by
  obtain ⟨hbefore, -, hacross⟩ := List.pairwise_append.1 h
  have hfresh : Follows ({ view := v, purpose } : Visibility) ∅ := rfl
  have hnext : ∀ d ∈ before, d.ComesAfter ∅ := by simp [Cell.ComesAfter]
  obtain ⟨hfollows, hview, hpurpose⟩ := hfresh.feed hnext hbefore
  rw [Set.empty_union] at hfollows
  have hc : c.ComesAfter {d | d ∈ before} := by
    intro d hd
    exact Cell.storeOrder_isLE.1 (hacross d hd c List.mem_cons_self)
  obtain ⟨found, hfound, hok, -⟩ := step_finds hfollows hc
  rw [decide_congr hview hpurpose] at hok
  rw [hview] at hfound
  exact ⟨found, hfound, hok⟩

theorem feed_accepts (v : View) (purpose : Purpose)
    (h : Cell.InStoreOrder (before ++ c :: after)) :
    ∃ d, (CellFilter.step (CellFilter.feed ({ view := v, purpose } : Visibility) before).2 c).1 = .ok d ∧
      (d = .accept ↔ v.Accepts purpose {d | d ∈ before} c) := by
  obtain ⟨found, hfound, hok⟩ := feed_finds v purpose h
  exact ⟨_, hok, decide_eq_accept_iff (f := { view := v, purpose }) hfound⟩

end Visibility

/-- The rule by which a scan includes a version, given what comes before it in the stream. -/
structure View.Includes (v : View) (purpose : Purpose) (before : List Cell) (c : Cell) : Prop where
  unshadowed : ¬∃ m ∈ before, m.column = c.column ∧ v.Passes m ∧ m.isDeleteMarker = true ∧
    c.timestamp < m.timestamp
  passes : v.Passes c
  marker : c.isDeleteMarker = true → purpose = .retainDeletes
  version : c.isDeleteMarker = false → purpose ≠ .userScan ∨ c.timestamp = v.reader.id ∨
    ¬∃ d ∈ before, d.column = c.column ∧ v.Passes d

theorem View.includes_iff_accepts {v : View} {purpose : Purpose} {before : List Cell} {c : Cell} :
    v.Includes purpose before c ↔ v.Accepts purpose {d | d ∈ before} c := by
  have hmarkers : purpose.retainsDeleteMarkers = true ↔ purpose = .retainDeletes := by
    simp [Purpose.retainsDeleteMarkers]
  have hversions : purpose.retainsVersions = true ↔ purpose ≠ .userScan := by
    simp [Purpose.retainsVersions]
  unfold Accepts Shadowed Preceded
  rw [hmarkers, hversions]
  constructor
  · rintro ⟨hunshadowed, hpasses, hmarker, hversion⟩
    refine ⟨hpasses, hunshadowed, ?_⟩
    split_ifs with hm
    · exact hmarker hm
    · exact or_left_comm.1 (hversion (Bool.eq_false_iff.2 hm))
  · rintro ⟨hpasses, hunshadowed, hkind⟩
    refine ⟨hunshadowed, hpasses, fun hm => ?_, fun hm => ?_⟩
    · rwa [if_pos hm] at hkind
    · rw [if_neg (by simp [hm])] at hkind
      exact or_left_comm.1 hkind

/-- The filter follows its rule. Fed a stream in store order, ties included, a new filter answers
every cell with a decision, and it includes those that the rule picks. A version passes if the
reader wrote it, or if it is neither excluded, nor above the bound, nor invalid, nor expired in
numbers without bound. -/
theorem Visibility.feed_includes_iff (v : View) (purpose : Purpose) {cells : List Cell}
    (h : Cell.InStoreOrder cells) :
    (∀ c, v.Passes c ↔ c.timestamp = v.reader.id ∨ c.timestamp ∉ v.reader.excluded ∧
      c.timestamp ≤ v.reader.upperBound ∧ c.timestamp ∉ v.reader.invalid ∧
        ¬(v.ttl.millis c.column.family ≠ 0 ∧
          c.timestamp.toNat + v.ttl.millis c.column.family * Tick.perMilli < v.now.toNat)) ∧
    ∀ before c after, cells = before ++ c :: after → ∃ d,
      (CellFilter.feed ({ view := v, purpose } : Visibility) cells).1[before.length]? = some (.ok d) ∧
        (d = .accept ↔ v.Includes purpose before c) := by
  constructor
  · intro c
    rw [View.Passes, TtlTable.expired_iff]
  · rintro before c after rfl
    obtain ⟨d, hd, haccept⟩ := feed_accepts v purpose h
    refine ⟨d, ?_, haccept.trans View.includes_iff_accepts.symm⟩
    rw [CellFilter.feed_answer, hd]

/-- The view of transaction 20 at a moment at which one family has just lost what is older than 10. -/
def View.ofTwenty : View := ⟨.ofLists 20 15 [12] [3], ⟨[([2], 1)]⟩, 1000010⟩

/-- An own write, a sibling's version, a delete marker and a version tied with it, a version that is
older than both and expired, and the versions of a dead and of a living writer in another family. -/
def tiedStream : List Cell :=
  let column : Column := ⟨[1], [2], [3]⟩
  [⟨column, 20, [7], []⟩, ⟨column, 12, [7], []⟩, ⟨column, 10, [], [Tag.deleteMarker]⟩,
    ⟨column, 10, [7], []⟩, ⟨column, 9, [7], []⟩, ⟨⟨[1], [4], [3]⟩, 3, [7], []⟩,
    ⟨⟨[1], [4], [3]⟩, 2, [7], []⟩]

example : (CellFilter.feed ({ view := .ofTwenty, purpose := .retainDeletes } : Visibility) tiedStream).1 =
    [.ok .accept, .ok .skip, .ok .accept, .ok .accept, .ok .skipColumn, .ok .skip, .ok .accept] := rfl

theorem Visibility.feed_includes_iff_tied : Cell.InStoreOrder tiedStream ∧ ∃ d,
    (CellFilter.feed ({ view := .ofTwenty, purpose := .retainDeletes } : Visibility) tiedStream).1[3]? =
        some (.ok d) ∧
      (d = .accept ↔ View.Includes .ofTwenty .retainDeletes (tiedStream.take 3)
        ⟨⟨[1], [2], [3]⟩, 10, [7], []⟩) := by
  have h : Cell.InStoreOrder tiedStream := by decide
  exact ⟨h, (Visibility.feed_includes_iff .ofTwenty .retainDeletes h).2 (tiedStream.take 3) _
    (tiedStream.drop 4) rfl⟩

end CellStore
