import Mathlib.Data.List.Destutter
import CellStore.Proofs.LastWrites

/-! # Merges

A merge of lists of cells in any order is a run that holds each of their keys once, with the cell
that comes first among all cells of that key. At every key it answers like its sources read one after
the other, so sources that stand together may be merged first. It is also what is left of a stable
sort by keys if of neighbours with one key only the first stays.
-/
namespace CellStore

/-- Keys compare as a store orders its cells, and where that is a tie a tombstone comes first. -/
theorem Cell.compare_key (a b : Cell) :
    compare a.key b.key = (a.storeOrder b).then (compare b.isTombstone a.isTombstone) := by
  rw [storeOrder, Ordering.then_assoc]
  rfl

namespace Run

variable {k : Key} {c : Cell} {cells : List Cell}

/-- A cell is the first of its key among some cells. -/
def First (cells : List Cell) (c : Cell) : Prop :=
  ∃ before after, cells = before ++ c :: after ∧ ∀ d ∈ before, d.key ≠ c.key

theorem lookup_eq_some_iff_first : lookup k cells = some c ↔ First cells c ∧ c.key = k := by
  rw [lookup, List.find?_eq_some_iff_append, beq_iff_eq]
  constructor
  · rintro ⟨rfl, before, after, hcells, hbefore⟩
    exact ⟨⟨before, after, hcells, by simpa using hbefore⟩, rfl⟩
  · rintro ⟨⟨before, after, hcells, hbefore⟩, rfl⟩
    exact ⟨rfl, before, after, hcells, by simpa using hbefore⟩

/-! ### What a merge holds -/

/-- At every key a merge answers like its sources, one after the other. -/
theorem lookup_merge (k : Key) (sources : List (List Cell)) :
    lookup k (merge sources) = lookup k sources.flatten := by
  unfold merge
  induction sources.flatten with
  | nil => rfl
  | cons c cs ih =>
    have hordered : Ordered (cs.foldr insert []) := by simpa [merge] using ordered_merge [cs]
    rw [List.foldr_cons, lookup_insert hordered, ih, ← lookup_append, List.singleton_append]

theorem mem_merge_iff_first {sources : List (List Cell)} :
    c ∈ merge sources ↔ First sources.flatten c := by
  have hmem : lookup c.key (merge sources) = some c ↔ c ∈ merge sources ∧ c.key = c.key :=
    lookup_eq_some_iff (ordered_merge sources)
  rw [lookup_merge, lookup_eq_some_iff_first] at hmem
  simpa using hmem.symm

/-- Sources that stand together may be merged first. -/
theorem merge_group (newer group older : List (List Cell)) :
    merge (newer ++ merge group :: older) = merge (newer ++ group ++ older) := by
  apply (ordered_merge _).ext_lookup (ordered_merge _)
  intro k
  simp only [lookup_merge, List.flatten_append, List.flatten_cons, lookup_append, Option.or_assoc]

/-! ### Sorting and thinning out -/

/-- The cells by their keys, those of one key in the order in which they came. -/
def sorted (cells : List Cell) : List Cell := cells.mergeSort fun a b => (compare a.key b.key).isLE

/-- The cells without those that follow one of the same key. -/
def thinned (cells : List Cell) : List Cell := cells.destutter fun a b => a.key ≠ b.key

theorem isLE_total (a b : Cell) :
    ((compare a.key b.key).isLE || (compare b.key a.key).isLE) = true := by
  have hswap : compare b.key a.key = (compare a.key b.key).swap := Std.OrientedCmp.eq_swap
  rw [hswap]
  cases compare a.key b.key <;> rfl

theorem isLE_trans (a b c : Cell) (hab : (compare a.key b.key).isLE = true)
    (hbc : (compare b.key c.key).isLE = true) : (compare a.key c.key).isLE = true :=
  Std.TransCmp.isLE_trans hab hbc

theorem sorted_pairwise (cells : List Cell) :
    (sorted cells).Pairwise fun a b => (compare a.key b.key).isLE = true :=
  List.pairwise_mergeSort isLE_trans isLE_total cells

/-- Sorting keeps the order among the cells of one key. -/
theorem filter_sorted (k : Key) (cells : List Cell) :
    (sorted cells).filter (fun c => c.key == k) = cells.filter fun c => c.key == k := by
  have hperm : (sorted cells).Perm cells := List.mergeSort_perm cells _
  have hlength := (hperm.filter fun c => c.key == k).length_eq
  have hties : (cells.filter fun c => c.key == k).Pairwise
      fun a b => (compare a.key b.key).isLE = true := by
    rw [List.pairwise_filter]
    refine List.pairwise_of_forall fun a b ha hb => ?_
    rw [beq_iff_eq.1 ha, beq_iff_eq.1 hb, Std.ReflOrd.compare_self]
    rfl
  have hstable : (cells.filter fun c => c.key == k).Sublist (sorted cells) :=
    List.sublist_mergeSort isLE_trans isLE_total hties List.filter_sublist
  have hsublist := hstable.filter fun c => c.key == k
  rw [List.filter_filter] at hsublist
  simp only [Bool.and_self] at hsublist
  exact (hsublist.eq_of_length hlength.symm).symm

theorem lookup_sorted (k : Key) (cells : List Cell) : lookup k (sorted cells) = lookup k cells := by
  simp only [lookup, ← List.head?_filter, filter_sorted]

/-- Only cells go whose key is still there. -/
theorem lookup_thinned (k : Key) (cells : List Cell) :
    lookup k (thinned cells) = lookup k cells := by
  cases cells with
  | nil => rfl
  | cons a cs =>
    change lookup k (cs.destutter' (fun a b => a.key ≠ b.key) a) = lookup k (a :: cs)
    induction cs generalizing a with
    | nil => rfl
    | cons b cs ih =>
      by_cases hab : a.key = b.key
      · rw [List.destutter'_cons_neg _ (not_not.2 hab), ih]
        simp only [lookup, List.find?_cons, hab]
        split <;> rfl
      · rw [List.destutter'_cons_pos _ hab]
        have hb := ih b
        simp only [lookup, List.find?_cons] at hb ⊢
        rw [hb]

theorem thinned_ordered (h : cells.Pairwise fun a b => (compare a.key b.key).isLE = true) :
    Ordered (thinned cells) := by
  have hchain := List.isChain_destutter (fun a b : Cell => a.key ≠ b.key) cells
  have hsorted := h.sublist (List.destutter_sublist (fun a b : Cell => a.key ≠ b.key) cells)
  unfold thinned Ordered
  generalize cells.destutter (fun a b : Cell => a.key ≠ b.key) = r at hchain hsorted ⊢
  induction r with
  | nil => exact .nil
  | cons a r ih =>
    obtain ⟨ha, hr⟩ := List.pairwise_cons.1 hsorted
    refine List.pairwise_cons.2 ⟨fun b hb => ?_, ih hchain.tail hr⟩
    cases r with
    | nil => cases hb
    | cons d r =>
      have had : compare a.key d.key = .lt := by
        have hne := (List.isChain_cons_cons.1 hchain).1
        have hle := ha d List.mem_cons_self
        rcases Ordering.isLE_iff_eq_lt_or_eq_eq.1 hle with hlt | heq
        · exact hlt
        · exact absurd (Std.compare_eq_iff_eq.1 heq) hne
      rcases List.mem_cons.1 hb with rfl | hb
      · exact had
      · exact Std.TransCmp.lt_of_lt_of_isLE had ((List.pairwise_cons.1 hr).1 b hb)

/-- To merge is to sort all cells and to keep the first one of each key. -/
theorem merge_eq_thinned (sources : List (List Cell)) :
    merge sources = thinned (sorted sources.flatten) := by
  apply (ordered_merge _).ext_lookup (thinned_ordered (sorted_pairwise _))
  intro k
  rw [lookup_merge, lookup_thinned, lookup_sorted]

/-- Merging is a union in which the first source wins. Whatever the sources are, a merge of them
ascends strictly in the order of the store, it has the keys of its sources and no others, and of each
key it holds the cell that comes first in them. So it is the sorted sources with the first cell of
each key, and sources that stand together may be merged first. -/
theorem merge_is_union (sources : List (List Cell)) :
    ((merge sources).Pairwise fun a b =>
      (a.storeOrder b).then (compare b.isTombstone a.isTombstone) = .lt) ∧
    (∀ k, (∃ c ∈ merge sources, c.key = k) ↔ ∃ source ∈ sources, ∃ c ∈ source, c.key = k) ∧
    (∀ c, c ∈ merge sources ↔ ∃ before after,
      sources.flatten = before ++ c :: after ∧ ∀ d ∈ before, d.key ≠ c.key) ∧
    merge sources = thinned (sorted sources.flatten) ∧
    ∀ newer group older, merge (newer ++ merge group :: older) = merge (newer ++ group ++ older) := by
  refine ⟨?_, fun k => ⟨?_, ?_⟩, fun c => mem_merge_iff_first, merge_eq_thinned sources, merge_group⟩
  · simpa only [Ordered, Cell.compare_key] using ordered_merge sources
  · rintro ⟨c, hc, rfl⟩
    obtain ⟨source, hsource, hmem⟩ := List.mem_flatten.1 (mem_of_mem_merge hc)
    exact ⟨source, hsource, c, hmem, rfl⟩
  · rintro ⟨source, hsource, c, hc, rfl⟩
    exact exists_mem_merge (List.mem_flatten_of_mem hsource hc)

/-- A source that is out of order and holds a key twice, in front of one with a tombstone. -/
example : let cell (t : TxId) (value : Bytes) (tags : List Tag) : Cell :=
      ⟨⟨[1], [2], [3]⟩, t, value, tags⟩
    merge [[cell 5 [1] [], cell 9 [2] [], cell 5 [3] []], [cell 9 [4] [], cell 5 [] [Tag.tombstone]]] =
      [cell 9 [2] [], cell 5 [] [Tag.tombstone], cell 5 [1] []] := rfl

end Run

end CellStore
