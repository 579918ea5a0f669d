import CellStore.Run

/-! # What runs hold

The order of two cells in a run says how their columns and timestamps compare, so
the newer versions of a column are exactly those already passed. A run is
determined by its members, and a merge holds what its newest source holds and, for
all other keys, what the merge of the older sources holds.
-/
namespace CellStore

theorem Key.compare_eq_lt {a b : Key} :
    compare a b = .lt ↔ compare a.column b.column = .lt ∨ a.column = b.column ∧
      (b.timestamp < a.timestamp ∨
        a.timestamp = b.timestamp ∧ a.tombstone = true ∧ b.tombstone = false) := by
  change compareLex (compareOn Key.column) (compareLex (fun a b => compare b.timestamp a.timestamp)
    (fun a b => compare b.tombstone a.tombstone)) a b = .lt ↔ _
  have hflag : compare b.tombstone a.tombstone = .lt ↔ a.tombstone = true ∧ b.tombstone = false := by
    cases a.tombstone <;> cases b.tombstone <;> decide
  simp only [compareLex, compareOn, Ordering.then_eq_lt, Std.compare_eq_iff_eq, Std.compare_eq_lt,
    hflag, eq_comm (a := b.timestamp)]

theorem Key.ne_of_lt {a b : Key} (h : compare a b = .lt) : a ≠ b := by
  rintro rfl
  rw [Std.ReflOrd.compare_self] at h
  cases h

/-- Of two cells of one column, the version with the larger timestamp comes first. -/
theorem Cell.key_lt_of_newer {a b : Cell} (hcol : a.column = b.column)
    (hts : b.timestamp < a.timestamp) :
    compare a.key b.key = .lt :=
  Key.compare_eq_lt.2 (.inr ⟨hcol, .inl hts⟩)

/-- A tombstone comes before every version that it masks. -/
theorem Cell.key_lt_of_tombstone {a b : Cell} (hcol : a.column = b.column)
    (ha : a.isTombstone = true) (hb : b.isTombstone = false) (hts : b.timestamp ≤ a.timestamp) :
    compare a.key b.key = .lt := by
  rcases UInt64.lt_or_eq_of_le hts with h | h
  · exact Cell.key_lt_of_newer hcol h
  · exact Key.compare_eq_lt.2 (.inr ⟨hcol, .inr ⟨h.symm, ha, hb⟩⟩)

/-- Versions of one column descend along a run. -/
theorem Cell.newer_of_key_lt {a b : Cell} (h : compare a.key b.key = .lt)
    (hcol : a.column = b.column) (ha : a.isTombstone = false) : b.timestamp < a.timestamp := by
  rcases Key.compare_eq_lt.1 h with h | ⟨-, h | ⟨-, h, -⟩⟩
  · have hcol' : a.key.column = b.key.column := hcol
    rw [hcol', Std.ReflOrd.compare_self] at h
    cases h
  · exact h
  · exact absurd (ha.symm.trans h) Bool.false_ne_true

/-- Columns never go back along a run. -/
theorem Cell.column_le_of_key_lt {a b : Cell} (h : compare a.key b.key = .lt) :
    compare a.column b.column = .lt ∨ a.column = b.column :=
  (Key.compare_eq_lt.1 h).imp id (·.1)

namespace Run

variable {r r' : List Cell} {a b c : Cell}

theorem Ordered.sublist (h : Ordered r) (hs : r'.Sublist r) : Ordered r' :=
  List.Pairwise.sublist hs h

theorem Ordered.eq_of_key_eq (h : Ordered r) (ha : a ∈ r) (hb : b ∈ r) (hk : a.key = b.key) :
    a = b := by
  induction r with
  | nil => cases ha
  | cons c cs ih =>
    obtain ⟨hc, hcs⟩ := List.pairwise_cons.1 h
    have hne {d : Cell} (hd : d ∈ cs) : c.key ≠ d.key := Key.ne_of_lt (hc d hd)
    rcases List.mem_cons.1 ha with rfl | ha' <;> rcases List.mem_cons.1 hb with rfl | hb'
    · rfl
    · exact absurd hk (hne hb')
    · exact absurd hk.symm (hne ha')
    · exact ih hcs ha' hb'

theorem Ordered.nodup (h : Ordered r) : r.Nodup :=
  List.Pairwise.imp (fun hlt hab => Key.ne_of_lt hlt (congrArg Cell.key hab)) h

/-- A run is determined by its members. -/
theorem Ordered.ext (h : Ordered r) (h' : Ordered r') (hm : ∀ c, c ∈ r ↔ c ∈ r') : r = r' := by
  have hp : r.Perm r' := (List.perm_ext_iff_of_nodup h.nodup h'.nodup).2 hm
  have hanti (a b : Cell) (hab : compare a.key b.key = .lt) (hba : compare b.key a.key = .lt) :
      a = b :=
    absurd hba (Std.OrientedCmp.not_lt_of_lt hab)
  exact List.Perm.eq_of_pairwise (fun a b _ _ => hanti a b) h h' hp

/-- What comes before a cell in the order comes before it in the run. -/
theorem Ordered.mem_left {pre suf : List Cell} (h : Ordered (pre ++ c :: suf))
    (ha : a ∈ pre ++ c :: suf) (hlt : compare a.key c.key = .lt) : a ∈ pre := by
  rcases List.mem_append.1 ha with ha | ha
  · exact ha
  · exfalso
    rcases List.mem_cons.1 ha with rfl | ha
    · exact Key.ne_of_lt hlt rfl
    · have hca := (List.pairwise_cons.1 (List.pairwise_append.1 h).2.1).1 a ha
      exact Std.OrientedCmp.not_lt_of_lt hca hlt

theorem Ordered.lt_of_mem_left {pre suf : List Cell} (h : Ordered (pre ++ c :: suf))
    (ha : a ∈ pre) :
    compare a.key c.key = .lt :=
  (List.pairwise_append.1 h).2.2 a ha c List.mem_cons_self

theorem mem_insert (h : Ordered r) : a ∈ insert c r ↔ a = c ∨ a ∈ r ∧ a.key ≠ c.key := by
  induction r with
  | nil => simp [insert]
  | cons d ds ih =>
    obtain ⟨hd, hds⟩ := List.pairwise_cons.1 h
    have hafter {x : Cell} (hx : x ∈ ds)
        (hle : compare c.key d.key = .lt ∨ compare c.key d.key = .eq) :
        x.key ≠ c.key := by
      rcases hle with hle | hle
      · exact (Key.ne_of_lt (Std.TransCmp.lt_trans hle (hd x hx))).symm
      · exact (Key.ne_of_lt (Std.TransCmp.lt_of_eq_of_lt hle (hd x hx))).symm
    unfold insert
    split
    · rename_i hlt
      have hdc : c.key ≠ d.key := Key.ne_of_lt hlt
      have := @hafter
      grind
    · rename_i heq
      have hdc : c.key = d.key := Std.compare_eq_iff_eq.1 heq
      have := @hafter
      grind
    · rename_i hgt
      have hdc : d.key ≠ c.key := Key.ne_of_lt (Std.OrientedCmp.lt_of_gt hgt)
      rw [List.mem_cons, ih hds]
      grind

/-- A merge holds its newest source, and of the other sources what has no key in it. -/
theorem mem_merge_cons (h : Ordered r) (older : List (List Cell)) :
    c ∈ merge (r :: older) ↔ c ∈ r ∨ c ∈ merge older ∧ ∀ d ∈ r, d.key ≠ c.key := by
  have hfold : merge (r :: older) = r.foldr insert (merge older) := by
    simp only [merge, List.flatten_cons, List.foldr_append]
  have hordered (l : List Cell) : Ordered (l.foldr insert (merge older)) := by
    induction l with
    | nil => exact ordered_merge older
    | cons d ds ih => exact ordered_insert d ih
  rw [hfold]
  clear hfold
  induction r with
  | nil => simp
  | cons d ds ih =>
    obtain ⟨hd, hds⟩ := List.pairwise_cons.1 h
    have hne {x : Cell} (hx : x ∈ ds) : d.key ≠ x.key := Key.ne_of_lt (hd x hx)
    have hrest := ih hds
    rw [List.foldr_cons, mem_insert (hordered ds)]
    have := @hne
    grind

theorem mem_merge_singleton (h : Ordered r) : c ∈ merge [r] ↔ c ∈ r := by
  rw [mem_merge_cons h]
  simp

/-- A merge holds of every key what the newest source with that key holds. -/
theorem mem_merge_iff {sources : List (List Cell)} (h : ∀ r ∈ sources, Ordered r) :
    c ∈ merge sources ↔ ∃ newer r older, sources = newer ++ r :: older ∧ c ∈ r ∧
      ∀ r' ∈ newer, ∀ d ∈ r', d.key ≠ c.key := by
  induction sources with
  | nil => simp
  | cons r rs ih =>
    rw [mem_merge_cons (h r List.mem_cons_self), ih fun r hr => h r (List.mem_cons_of_mem _ hr)]
    constructor
    · rintro (hc | ⟨⟨newer, r', older, rfl, hc, hnewer⟩, hr⟩)
      · exact ⟨[], r, rs, rfl, hc, by simp⟩
      · exact ⟨r :: newer, r', older, rfl, hc, List.forall_mem_cons.2 ⟨hr, hnewer⟩⟩
    · rintro ⟨newer, r', older, hsplit, hc, hnewer⟩
      cases newer with
      | nil =>
        cases hsplit
        exact .inl hc
      | cons n newer =>
        cases hsplit
        obtain ⟨hr, hnewer⟩ := List.forall_mem_cons.1 hnewer
        exact .inr ⟨⟨newer, r', older, rfl, hc, hnewer⟩, hr⟩

theorem mem_of_mem_merge {sources : List (List Cell)} (h : c ∈ merge sources) :
    c ∈ sources.flatten := by
  unfold merge at h
  generalize sources.flatten = cells at h ⊢
  induction cells with
  | nil => exact h
  | cons d ds ih =>
    rcases mem_of_mem_insert h with rfl | h
    · exact List.mem_cons_self
    · exact List.mem_cons_of_mem d (ih h)

theorem exists_mem_insert (c : Cell) (h : a ∈ c :: r) : ∃ d ∈ insert c r, d.key = a.key := by
  induction r with
  | nil => exact ⟨a, h, rfl⟩
  | cons d ds ih =>
    unfold insert
    split
    · exact ⟨a, h, rfl⟩
    · rename_i heq
      have hkey : c.key = d.key := Std.compare_eq_iff_eq.1 heq
      simp only [List.mem_cons, exists_eq_or_imp] at h ⊢
      rcases h with rfl | rfl | h
      · exact .inl rfl
      · exact .inl hkey
      · exact .inr ⟨a, h, rfl⟩
    · simp only [List.mem_cons, exists_eq_or_imp] at h ih ⊢
      rcases h with rfl | rfl | h
      · exact .inr (ih (.inl rfl))
      · exact .inl rfl
      · exact .inr (ih (.inr h))

/-- No key of the sources is lost in a merge. -/
theorem exists_mem_merge {sources : List (List Cell)} (h : a ∈ sources.flatten) :
    ∃ d ∈ merge sources, d.key = a.key := by
  unfold merge
  generalize sources.flatten = cells at h ⊢
  induction cells with
  | nil => cases h
  | cons c cs ih =>
    rcases List.mem_cons.1 h with rfl | h
    · exact exists_mem_insert a List.mem_cons_self
    · obtain ⟨d, hd, hda⟩ := ih h
      obtain ⟨e, he, hed⟩ := exists_mem_insert c (List.mem_cons_of_mem c hd)
      exact ⟨e, he, hed.trans hda⟩

end Run

end CellStore
