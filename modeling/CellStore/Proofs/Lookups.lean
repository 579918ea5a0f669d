import CellStore.Proofs.Transparency

/-! # Stores by key

A store is a map from keys to cells: of every key it holds the cell of the newest source
that has one. A write puts the last of its cells at each key and touches no other, and a
flush or compaction can change what is held at a key only by what its new file holds there.
-/
namespace CellStore

namespace Run

variable {r r' : List Cell} {k : Key} {c : Cell}

theorem key_of_lookup (h : lookup k r = some c) : c.key = k := by
  simpa using List.find?_some h

theorem lookup_eq_some_iff (h : Ordered r) : lookup k r = some c ↔ c ∈ r ∧ c.key = k := by
  constructor
  · intro hfind
    exact ⟨List.mem_of_find?_eq_some hfind, key_of_lookup hfind⟩
  · rintro ⟨hc, rfl⟩
    have hsome : (lookup c.key r).isSome = true := by
      rw [lookup, List.find?_isSome]
      exact ⟨c, hc, by simp⟩
    obtain ⟨d, hd⟩ := Option.isSome_iff_exists.1 hsome
    rw [hd, h.eq_of_key_eq (List.mem_of_find?_eq_some hd) hc (key_of_lookup hd)]

/-- Runs that hold the same cells at a key answer alike for it. -/
theorem lookup_congr (h : Ordered r) (h' : Ordered r') (hm : ∀ c, c.key = k → (c ∈ r ↔ c ∈ r')) :
    lookup k r = lookup k r' := by
  ext c
  rw [lookup_eq_some_iff h, lookup_eq_some_iff h']
  exact and_congr_left fun hk => hm c hk

theorem lookup_append (k : Key) (r r' : List Cell) :
    lookup k (r ++ r') = (lookup k r).or (lookup k r') := by
  simp [lookup]

theorem lookup_insert (h : Ordered r) (k : Key) (c : Cell) :
    lookup k (insert c r) = (lookup k [c]).or (lookup k r) := by
  ext d
  have hd : lookup k (insert c r) = some d ↔ (d = c ∨ d ∈ r ∧ d.key ≠ c.key) ∧ d.key = k := by
    rw [lookup_eq_some_iff (ordered_insert c h), mem_insert h]
  by_cases hk : c.key = k
  · have hc : lookup k [c] = some c := by simp [lookup, hk]
    rw [hd, hc, Option.some_or, Option.some.injEq]
    grind
  · have hc : lookup k [c] = none := by simp [lookup, hk]
    rw [hd, hc, Option.none_or, lookup_eq_some_iff h]
    grind

/-- Of the cells placed one after the other, the last one at a key stays. -/
theorem lookup_foldl_insert (h : Ordered r) (k : Key) (cells : List Cell) :
    lookup k (cells.foldl (fun m c => insert c m) r) = (lookup k cells.reverse).or (lookup k r) := by
  induction cells generalizing r with
  | nil => rfl
  | cons c cs ih =>
    rw [List.foldl_cons, ih (ordered_insert c h), lookup_insert h, List.reverse_cons, lookup_append,
      Option.or_assoc]

end Run

namespace Store

variable {s : Store} {k : Key} {c : Cell} {file : List Cell} {u : Upkeep}

theorem ordered_contents (s : Store) : Run.Ordered s.contents := Run.ordered_merge _

theorem ordered_fileContents (s : Store) : Run.Ordered s.fileContents := Run.ordered_merge _

theorem mem_contents_iff_lookup : c ∈ s.contents ↔ Run.lookup c.key s.contents = some c := by
  simp [Run.lookup_eq_some_iff s.ordered_contents]

/-- The memstore comes first. -/
theorem WellFormed.lookup_contents (hw : s.WellFormed) (k : Key) :
    Run.lookup k s.contents = (Run.lookup k s.memstore).or (Run.lookup k s.fileContents) := by
  ext c
  rw [Run.lookup_eq_some_iff s.ordered_contents, hw.mem_contents_iff_overlay, Run.Overlay]
  cases hk : Run.lookup k s.memstore with
  | some d =>
    obtain ⟨hd, hdk⟩ := (Run.lookup_eq_some_iff hw.memstore).1 hk
    rw [Option.some_or, Option.some.injEq]
    constructor
    · rintro ⟨hc | ⟨-, hfree⟩, hck⟩
      · exact hw.memstore.eq_of_key_eq hd hc (hdk.trans hck.symm)
      · exact absurd (hdk.trans hck.symm) (hfree d hd)
    · rintro rfl
      exact ⟨.inl hd, hdk⟩
  | none =>
    have hfree : ∀ d ∈ s.memstore, d.key ≠ k := by
      simpa [Run.lookup] using hk
    rw [Option.none_or, Run.lookup_eq_some_iff s.ordered_fileContents]
    apply and_congr_left
    rintro rfl
    exact ⟨fun h => (h.resolve_left fun hc => hfree c hc rfl).1, fun h => .inr ⟨h, hfree⟩⟩

theorem WellFormed.lookup_write (hw : s.WellFormed) (cells : List Cell) (k : Key) :
    Run.lookup k (s.write cells).contents =
      (Run.lookup k cells.reverse).or (Run.lookup k s.contents) := by
  rw [(hw.write cells).lookup_contents, hw.lookup_contents, ← Option.or_assoc]
  exact congrArg (fun o => o.or (Run.lookup k s.fileContents))
    (Run.lookup_foldl_insert hw.memstore k cells)

theorem WellFormed.mem_contents_write_iff (hw : s.WellFormed) {cells : List Cell}
    (h : ∀ d ∈ cells, d.key ≠ c.key) :
    c ∈ (s.write cells).contents ↔ c ∈ s.contents := by
  have hnone : Run.lookup c.key cells.reverse = none := by simpa [Run.lookup] using h
  rw [mem_contents_iff_lookup, mem_contents_iff_lookup, hw.lookup_write, hnone, Option.none_or]

/-- A flush or compaction keeps what is held at a key if its file does. -/
theorem WellFormed.lookup_replace (hw : s.WellFormed) (hfile : Run.Ordered file)
    (h : ∀ c, c.key = k → (c ∈ file ↔ c ∈ s.part u)) :
    Run.lookup k (s.replace file u).contents = Run.lookup k s.contents := by
  apply Run.lookup_congr (s.replace file u).ordered_contents s.ordered_contents
  intro c hc
  have hkey (c d : Cell) (hc : c.key = k) (hd : d.key = c.key) : d.key = k := hd.trans hc
  cases u with
  | flush =>
    rw [mem_contents_flushed hfile, hw.mem_contents_iff_overlay]
    exact Run.Overlay.congr hkey h (fun _ _ => Iff.rfl) hc
  | compact kind =>
    rw [mem_contents_compacted hw hfile, hw.mem_contents_iff_overlay]
    exact Run.Overlay.congr hkey (fun _ _ => Iff.rfl) h hc

end Store

end CellStore
