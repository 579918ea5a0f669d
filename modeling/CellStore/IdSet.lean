import CellStore.Tick

/-! # Sets of transaction ids

A set is held as its strictly increasing list, so a search may stop at the first
id that is not below the one asked for. Building from a list in any order and
with any repeats keeps exactly its members.
-/
namespace CellStore

namespace IdSet

/-- Put an id at its place in an increasing list; an id already there stays once. -/
def place (id : TxId) : List TxId → List TxId
  | [] => [id]
  | x :: xs =>
    if id < x then id :: x :: xs
    else if id = x then x :: xs
    else x :: place id xs

/-- Look for an id in an increasing list, no further than its place. -/
def search (id : TxId) : List TxId → Bool
  | [] => false
  | x :: xs => if x < id then search id xs else x == id

theorem mem_place {id a : TxId} {l : List TxId} : a ∈ place id l ↔ a = id ∨ a ∈ l := by
  induction l with
  | nil => simp [place]
  | cons x xs ih =>
    unfold place
    split
    · simp
    · split
      · simp_all
      · simp [ih]; grind

theorem pairwise_place {id : TxId} {l : List TxId} (h : l.Pairwise (· < ·)) :
    (place id l).Pairwise (· < ·) := by
  induction l with
  | nil => simp [place]
  | cons x xs ih =>
    rw [List.pairwise_cons] at h
    unfold place
    split
    · rename_i hlt
      refine List.pairwise_cons.2 ⟨?_, List.pairwise_cons.2 h⟩
      intro a ha
      rcases List.mem_cons.1 ha with rfl | ha
      · exact hlt
      · exact UInt64.lt_trans hlt (h.1 a ha)
    · split
      · exact List.pairwise_cons.2 h
      · refine List.pairwise_cons.2 ⟨?_, ih h.2⟩
        intro a ha
        rcases mem_place.1 ha with rfl | ha
        · grind
        · exact h.1 a ha

theorem search_eq_true_iff {id : TxId} {l : List TxId} (h : l.Pairwise (· < ·)) :
    search id l = true ↔ id ∈ l := by
  induction l with
  | nil => simp [search]
  | cons x xs ih =>
    rw [List.pairwise_cons] at h
    unfold search
    split
    · rename_i hlt
      rw [ih h.2, List.mem_cons]
      grind
    · rename_i hge
      rw [beq_iff_eq, List.mem_cons]
      constructor
      · rintro rfl; exact .inl rfl
      · rintro (rfl | hm)
        · rfl
        · exact absurd (h.1 id hm) hge

end IdSet

/-- Ids in strictly increasing order. -/
structure IdSet where
  ids : List TxId
  increasing : ids.Pairwise (· < ·)
deriving DecidableEq, Repr

namespace IdSet

def empty : IdSet := ⟨[], .nil⟩

instance : Inhabited IdSet := ⟨empty⟩

def insert (id : TxId) (s : IdSet) : IdSet := ⟨place id s.ids, pairwise_place s.increasing⟩

/-- The members of a list, in any order and with any repeats. -/
def ofList (l : List TxId) : IdSet := l.foldr insert empty

def contains (s : IdSet) (id : TxId) : Bool := search id s.ids

instance : Membership TxId IdSet := ⟨fun s id => id ∈ s.ids⟩

theorem mem_def {s : IdSet} {id : TxId} : id ∈ s ↔ id ∈ s.ids := Iff.rfl

@[simp] theorem contains_eq_true_iff {s : IdSet} {id : TxId} : s.contains id = true ↔ id ∈ s :=
  search_eq_true_iff s.increasing

instance (s : IdSet) (id : TxId) : Decidable (id ∈ s) :=
  decidable_of_iff _ contains_eq_true_iff

@[simp] theorem mem_insert {s : IdSet} {id a : TxId} : a ∈ s.insert id ↔ a = id ∨ a ∈ s :=
  mem_place

@[simp] theorem mem_ofList {l : List TxId} {id : TxId} : id ∈ ofList l ↔ id ∈ l := by
  induction l with
  | nil => simp [ofList, empty, mem_def]
  | cons x xs ih => simpa [ofList] using or_congr_right ih

end IdSet

end CellStore
