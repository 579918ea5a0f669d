import CellStore.Cell

/-! # Runs of cells

A run is a list of cells whose keys strictly increase; the memstore and every
store file are runs. Placing a cell keeps the order and replaces the cell that
held the key. Merging sources is placing all their cells, oldest source first,
so the newest source wins where two hold the same key.
-/
namespace CellStore.Run

/-- The keys strictly increase. -/
def Ordered (r : List Cell) : Prop := r.Pairwise (fun a b => compare a.key b.key = .lt)

instance (r : List Cell) : Decidable (Ordered r) :=
  inferInstanceAs (Decidable (List.Pairwise _ r))

/-- Put a cell at the place of its key, in place of the cell that was there. -/
def insert (c : Cell) : List Cell → List Cell
  | [] => [c]
  | d :: ds =>
    match compare c.key d.key with
    | .lt => c :: d :: ds
    | .eq => c :: ds
    | .gt => d :: insert c ds

/-- One run out of several sources, the newest first; it wins every tie. -/
def merge (sources : List (List Cell)) : List Cell := sources.flatten.foldr insert []

/-- The cell that a run holds for a key. -/
def lookup (k : Key) (r : List Cell) : Option Cell := r.find? (fun c => c.key == k)

@[simp] theorem merge_nil : merge [] = [] := rfl

theorem mem_of_mem_insert {c a : Cell} {r : List Cell} (h : a ∈ insert c r) : a = c ∨ a ∈ r := by
  induction r with
  | nil => simpa [insert] using h
  | cons d ds ih =>
    unfold insert at h
    split at h
    · simpa using h
    · rcases List.mem_cons.1 h with h | h
      · exact .inl h
      · exact .inr (List.mem_cons_of_mem _ h)
    · rcases List.mem_cons.1 h with h | h
      · exact .inr (h ▸ List.mem_cons_self)
      · exact (ih h).imp_right (List.mem_cons_of_mem _)

/-- Placing a cell keeps a run ordered. -/
theorem ordered_insert (c : Cell) {r : List Cell} (h : Ordered r) : Ordered (insert c r) := by
  induction r with
  | nil => simp [insert, Ordered]
  | cons d ds ih =>
    have hd := List.pairwise_cons.1 h
    unfold insert
    split
    · rename_i hlt
      refine List.pairwise_cons.2 ⟨fun a ha => ?_, h⟩
      rcases List.mem_cons.1 ha with rfl | ha
      · exact hlt
      · exact Std.TransCmp.lt_trans hlt (hd.1 a ha)
    · rename_i heq
      refine List.pairwise_cons.2 ⟨fun a ha => ?_, hd.2⟩
      exact Std.TransCmp.lt_of_eq_of_lt heq (hd.1 a ha)
    · rename_i hgt
      refine List.pairwise_cons.2 ⟨fun a ha => ?_, ih hd.2⟩
      rcases mem_of_mem_insert ha with rfl | ha
      · exact Std.OrientedCmp.lt_of_gt hgt
      · exact hd.1 a ha

/-- Whatever the sources are, merging them gives a run. -/
theorem ordered_merge (sources : List (List Cell)) : Ordered (merge sources) := by
  unfold merge
  induction sources.flatten with
  | nil => exact .nil
  | cons c cs ih => exact ordered_insert c ih

end CellStore.Run
