import CellStore.Proofs.StoreOrder
import CellStore.Proofs.Streams

/-! # What a marker hides

Whatever filter a caller adds to a read, what the read gives has passed the visibility that was
installed for it. The caller may end the reading of a column early, and it may make the read
fail, but it does not keep a version away from the visibility that is newer than one it lets
through. So the visibility knows of every version and every delete marker above a version that is
given: a read gives only what its reader is to be shown, and nothing at or below a delete marker
that the reader can see.
-/
namespace CellStore

/-- The cursor has met no tombstone that masks the version. -/
def Cursor.Clears (k : Cursor) (m : Cell) : Prop :=
  k.column = some m.column → k.isMasked m.timestamp = false

theorem Cursor.Clears.enter {k : Cursor} {m : Cell} (h : k.Clears m) (c : Cell) :
    (k.enter c).Clears m := by
  unfold Cursor.enter
  split_ifs
  · exact h
  · exact fun _ => rfl

theorem Cursor.Clears.mask {k : Cursor} {m x : Cell} (h : k.Clears m) (hk : k.column = some x.column)
    (hx : x.column = m.column → ¬m.timestamp ≤ x.timestamp) : (k.mask x.timestamp).Clears m := by
  intro hcolumn
  rw [Bool.eq_false_iff]
  intro hmask
  rcases (k.mask_isMasked _ _).1 hmask with hle | hmask
  · exact hx (Option.some.inj (hk.symm.trans hcolumn)) hle
  · exact Bool.false_ne_true ((h hcolumn).symm.trans hmask)

namespace Sweep

variable {φ : Type} [CellFilter φ] {s : Sweep} {k : Cursor} {f : φ} {cells xs out : List Cell}
  {c m x : Cell}

/-- What a sweep keeps, its filter has accepted, unless it carries tombstones along. -/
theorem accepted_of_mem (happ : s.appliesTombstones = true) (h : (s.run k f cells).1 = .ok out)
    (hc : c ∈ out) : ∃ before after, s.asked k f cells = before ++ c :: after ∧
      (CellFilter.step (CellFilter.feed f before).2 c).1 = .ok .accept := by
  induction cells generalizing k f out with
  | nil =>
    cases h
    cases hc
  | cons x xs ih =>
    simp only [run] at h
    simp only [asked]
    split_ifs at h ⊢
    · exact ih h hc
    · generalize hstep : CellFilter.step f x = answer at h ⊢
      -- Once the filter has answered, what is asked later is asked of the filter after it.
      have hlater {k' : Cursor} {out' : List Cell} (hout : (s.run k' answer.2 xs).1 = .ok out')
          (hc' : c ∈ out') : ∃ before after, x :: s.asked k' answer.2 xs = before ++ c :: after ∧
            (CellFilter.step (CellFilter.feed f before).2 c).1 = .ok .accept := by
        obtain ⟨before, after, hsplit, haccept⟩ := ih hout hc'
        refine ⟨x :: before, after, by rw [hsplit]; rfl, ?_⟩
        rw [CellFilter.feed_cons, hstep]
        exact haccept
      obtain ⟨e | d, f'⟩ := answer
      · cases h
      · cases d with
        | accept =>
          simp only [keep] at h
          cases hrest : (s.run (k.enter x).take f' xs).1 with
          | error e => simp [hrest, Except.map] at h
          | ok rest =>
            simp only [hrest, Except.map, Except.ok.injEq] at h
            rw [← h, List.mem_cons] at hc
            rcases hc with rfl | hc
            · exact ⟨[], _, rfl, by rw [CellFilter.feed_nil, hstep]⟩
            · exact hlater hrest hc
        | skip => exact hlater h hc
        | skipColumn => exact hlater h hc
    · exact ih h hc

/-- A sweep that asks about a cell does so at the next one, or it has gone on by then. Within the
column of the next one it then still masks and skips what it did. -/
theorem mem_asked_cons (hc : c ∈ s.asked k f (x :: xs)) :
    (c = x ∧ x.isTombstone = false ∧ s.admits (k.enter x) x = true) ∨
      ∃ (k' : Cursor) (f' : φ), c ∈ s.asked k' f' xs ∧ k'.column = some x.column ∧
        ((k.enter x).skipping = true → k'.skipping = true) ∧
        (∀ t, (k.enter x).isMasked t = true → k'.isMasked t = true) ∧
        (s.appliesTombstones = true → x.isTombstone = true →
          ∀ t ≤ x.timestamp, k'.isMasked t = true) := by
  have hk := k.enter_column x
  simp only [asked] at hc
  split_ifs at hc with htomb happ hadm
  · refine .inr ⟨_, f, hc, hk, id, fun t ht => ?_, fun _ _ t ht => ?_⟩
    · exact (Cursor.mask_isMasked _ _ _).2 (.inr ht)
    · exact (Cursor.mask_isMasked _ _ _).2 (.inl ht)
  · exact .inr ⟨_, f, hc, hk, id, fun _ => id, fun h => absurd h happ⟩
  · rcases List.mem_cons.1 hc with rfl | hc
    · exact .inl ⟨rfl, Bool.eq_false_iff.2 htomb, hadm⟩
    · generalize CellFilter.step f x = answer at hc
      obtain ⟨e | d, f'⟩ := answer
      · cases hc
      · cases d with
        | accept => exact .inr ⟨_, f', hc, hk, id, fun _ => id, fun _ h => absurd h htomb⟩
        | skip => exact .inr ⟨_, f', hc, hk, id, fun _ => id, fun _ h => absurd h htomb⟩
        | skipColumn => exact .inr ⟨_, f', hc, hk, fun _ => rfl, fun _ => id, fun _ h => absurd h htomb⟩
  · exact .inr ⟨_, f, hc, hk, id, fun _ => id, fun _ h => absurd h htomb⟩

theorem mem_of_asked (hc : c ∈ s.asked k f cells) : c ∈ cells ∧ c.isTombstone = false := by
  simpa using (s.asked_sublist k f cells).subset hc

/-- A cell that is asked about is admitted where the sweep then stands. -/
theorem admitted_of_asked (hc : c ∈ s.asked k f cells) :
    ∃ k' : Cursor, k'.column = some c.column ∧ s.admits k' c = true := by
  induction cells generalizing k f with
  | nil => cases hc
  | cons x xs ih =>
    rcases mem_asked_cons hc with ⟨rfl, -, hadm⟩ | ⟨k', f', hc', -⟩
    · exact ⟨k.enter c, k.enter_column c, hadm⟩
    · exact ih hc'

/-- No cell of a later column comes before one that is asked about. -/
theorem column_of_asked_cons (hord : Run.Ordered (x :: xs)) (hc : c ∈ s.asked k f (x :: xs))
    (hx : compare c.column x.column = .lt ∨ x.column = c.column) : x.column = c.column := by
  refine hx.resolve_left fun hlt => ?_
  rcases List.mem_cons.1 (mem_of_asked hc).1 with rfl | hmem
  · simp at hlt
  · rcases Cell.column_le_of_key_lt ((List.pairwise_cons.1 hord).1 c hmem) with hxc | hxc
    · exact Std.OrientedCmp.not_lt_of_lt hlt hxc
    · simp [hxc] at hlt

/-- Once it skips the rest of a column, a sweep asks about none of it. -/
theorem column_ne_of_skipping {column : Column} (hord : Run.Ordered cells)
    (hk : k.column = some column) (hskip : k.skipping = true)
    (hahead : ∀ x ∈ cells, compare column x.column = .lt ∨ x.column = column)
    (hc : c ∈ s.asked k f cells) : c.column ≠ column := by
  induction cells generalizing k f with
  | nil => cases hc
  | cons x xs ih =>
    rintro rfl
    rw [List.forall_mem_cons] at hahead
    have hcol := column_of_asked_cons hord hc hahead.1
    have henter : k.enter x = k := by rw [Cursor.enter, if_pos (by rw [hk, hcol])]
    rcases mem_asked_cons hc with ⟨rfl, -, hadm⟩ | ⟨k', f', hc', hk', hskips, -⟩
    · simp [henter, admits, hskip] at hadm
    · rw [henter] at hskips
      have hxs := (List.pairwise_cons.1 hord).2
      exact ih hxs (hk'.trans (congrArg some hcol)) (hskips hskip) hahead.2 hc' rfl

/-- Where it masks a version, a sweep does not ask about it. -/
theorem isMasked_eq_false_of_asked (hord : Run.Ordered cells) (hk : k.column = some c.column)
    (hahead : ∀ x ∈ cells, compare c.column x.column = .lt ∨ x.column = c.column)
    (hc : c ∈ s.asked k f cells) : k.isMasked c.timestamp = false := by
  rw [Bool.eq_false_iff]
  intro hmask
  induction cells generalizing k f with
  | nil => cases hc
  | cons x xs ih =>
    rw [List.forall_mem_cons] at hahead
    have hcol := column_of_asked_cons hord hc hahead.1
    have henter : k.enter x = k := by rw [Cursor.enter, if_pos (by rw [hk, hcol])]
    rcases mem_asked_cons hc with ⟨rfl, -, hadm⟩ | ⟨k', f', hc', hk', -, hmasks, -⟩
    · simp [henter, admits, hmask] at hadm
    · rw [henter] at hmasks
      have hxs := (List.pairwise_cons.1 hord).2
      exact ih hxs (hk'.trans (congrArg some hcol)) hahead.2 hc' (hmasks _ hmask)

/-- A sweep that applies tombstones asks about nothing that they mask. -/
theorem not_masked_of_asked (happ : s.appliesTombstones = true) (hord : Run.Ordered cells)
    (hc : c ∈ s.asked k f cells) : ¬c.Masked cells := by
  induction cells generalizing k f with
  | nil => cases hc
  | cons x xs ih =>
    rintro ⟨t, ht, htcol, htomb, hle⟩
    obtain ⟨hx, hxs⟩ := List.pairwise_cons.1 hord
    have hbefore := Cell.key_lt_of_tombstone htcol htomb (mem_of_asked hc).2 hle
    rcases mem_asked_cons hc with ⟨rfl, hversion, -⟩ | ⟨k', f', hc', hk', -, -, hmask⟩
    · rcases List.mem_cons.1 ht with rfl | ht
      · exact Bool.false_ne_true (hversion.symm.trans htomb)
      · exact Std.OrientedCmp.not_lt_of_lt hbefore (hx t ht)
    · rcases List.mem_cons.1 ht with rfl | ht
      · have hahead : ∀ y ∈ xs, compare c.column y.column = .lt ∨ y.column = c.column := by
          intro y hy
          rw [← htcol]
          exact (Cell.column_le_of_key_lt (hx y hy)).imp id Eq.symm
        have hfree := isMasked_eq_false_of_asked hxs (hk'.trans (congrArg some htcol)) hahead hc'
        rw [hmask happ htomb _ hle] at hfree
        cases hfree
      · exact ih hxs hc' ⟨t, ht, htcol, htomb, hle⟩

/-- At a version of a column of which it asks about another one later, a sweep does not skip. -/
theorem enter_skipping_of_asked (hord : Run.Ordered (x :: xs)) (hversion : x.isTombstone = false)
    (hc : c ∈ s.asked k f (x :: xs)) (hcol : c.column = x.column) : (k.enter x).skipping = false := by
  obtain ⟨hx, hxs⟩ := List.pairwise_cons.1 hord
  by_contra hskip
  have hadm : s.admits (k.enter x) x = false := by simp [admits, hskip]
  simp only [asked, hversion, hadm, Bool.false_eq_true, if_false] at hc
  have hahead : ∀ y ∈ xs, compare x.column y.column = .lt ∨ y.column = x.column := by
    intro y hy
    exact (Cell.column_le_of_key_lt (hx y hy)).imp id Eq.symm
  exact column_ne_of_skipping hxs (k.enter_column x) (by simpa using hskip) hahead hc hcol

/-- Where every version is wanted, a sweep that asks about a version has asked about all that come
before it in its column, if they are in the time range and not masked. -/
theorem mem_asked_of_before (hall : s.versions = .all) (hord : Run.Ordered cells)
    (hversion : m.isTombstone = false) (hrange : s.timeRange.contains m.timestamp = true)
    (hmasked : ¬m.Masked cells) (hk : k.Clears m) (hm : m ∈ cells) (hc : c ∈ s.asked k f cells)
    (hcol : c.column = m.column) (hlt : compare m.key c.key = .lt) : m ∈ s.asked k f cells := by
  induction cells generalizing k f with
  | nil => cases hm
  | cons x xs ih =>
    obtain ⟨hx, hxs⟩ := List.pairwise_cons.1 hord
    have hk' : (k.enter x).Clears m := hk.enter x
    have hmasked' : ¬m.Masked xs := fun ⟨t, ht, hrest⟩ => hmasked ⟨t, List.mem_cons_of_mem x ht, hrest⟩
    by_cases hxm : x = m
    · subst hxm
      have hskip := enter_skipping_of_asked hord hversion hc hcol
      have hadm : s.admits (k.enter x) x = true := by
        simp [admits, hskip, hk' (k.enter_column x), hrange, hall, Versions.allows]
      simp [asked, hversion, hadm]
    · have hmem : m ∈ xs := (List.mem_cons.1 hm).resolve_left (Ne.symm hxm)
      have hcx : c ≠ x := by
        rintro rfl
        exact Std.OrientedCmp.not_lt_of_lt hlt (hx m hmem)
      simp only [asked] at hc ⊢
      split_ifs at hc ⊢ with htomb
      · refine ih hxs hmasked' (hk'.mask (k.enter_column x) fun hxcol hle => ?_) hmem hc
        exact hmasked ⟨x, List.mem_cons_self, hxcol, htomb, hle⟩
      · exact ih hxs hmasked' hk' hmem hc
      · apply List.mem_cons_of_mem
        replace hc := (List.mem_cons.1 hc).resolve_left hcx
        generalize CellFilter.step f x = answer at hc ⊢
        obtain ⟨e | d, f'⟩ := answer
        · cases hc
        · cases d with
          | accept => exact ih hxs hmasked' hk' hmem hc
          | skip => exact ih hxs hmasked' hk' hmem hc
          | skipColumn => exact ih hxs hmasked' hk' hmem hc
      · exact ih hxs hmasked' hk' hmem hc

end Sweep

/-! ## Behind a visibility filter -/

theorem Decision.eq_accept_of_strictest {a b : Decision} (h : a.strictest b = .accept) :
    a = .accept := by
  cases a <;> cases b <;> simp_all [strictest, strictness]

namespace Filter

variable {v : Visibility} {f : Filter} {before after cells : List Cell} {c : Cell}

theorem feed_visibility_state (v : Visibility) (cells : List Cell) :
    (CellFilter.feed (visibility v) cells).2 = visibility (CellFilter.feed v cells).2 := by
  induction cells generalizing v with
  | nil => rfl
  | cons c cs ih => exact ih (v.step c).2

/-- As long as the visibility decides, the filter behind it is asked as well. -/
theorem feed_chain_state (hv : CellFilter.Decides v cells) :
    (CellFilter.feed (chain [visibility v, f]) cells).2 =
      chain [visibility (CellFilter.feed v cells).2, (CellFilter.feed f cells).2] := by
  induction cells generalizing v f with
  | nil => rfl
  | cons c cs ih =>
    obtain ⟨d, hd⟩ := hv (v.step c).1 (by simp [CellFilter.feed_cons, CellFilter.step])
    have hchain : (CellFilter.step (chain [visibility v, f]) c).2 =
        chain [visibility (v.step c).2, (f.step c).2] := by
      simp only [CellFilter.step, step, stepAll, hd]
      generalize f.step c = answer
      obtain ⟨_ | _, _⟩ := answer <;> rfl
    rw [CellFilter.feed_cons, hchain]
    apply ih
    intro answer hanswer
    apply hv answer
    rw [CellFilter.feed_cons]
    exact List.mem_cons_of_mem _ hanswer

/-- What a visibility and the caller's filter accept together, the visibility accepts. -/
theorem accepts_of_combine {caller : Option Filter} (hv : CellFilter.Decides v (before ++ c :: after))
    (h : (CellFilter.step (CellFilter.feed ((visibility v).combine caller) before).2 c).1 = .ok .accept) :
    (CellFilter.step (CellFilter.feed v before).2 c).1 = .ok .accept := by
  cases caller with
  | none =>
    rw [combine, feed_visibility_state] at h
    exact h
  | some f =>
    have hbefore : CellFilter.Decides v before := by
      intro answer hanswer
      apply hv answer
      rw [CellFilter.feed_append]
      exact List.mem_append_left _ hanswer
    rw [combine, feed_chain_state hbefore] at h
    simp only [CellFilter.step, step, stepAll] at h ⊢
    generalize Visibility.step (CellFilter.feed v before).2 c = answer at h ⊢
    obtain ⟨e | d, v'⟩ := answer
    · cases h
    · generalize step (CellFilter.feed f before).2 c = behind at h
      obtain ⟨e | d', f'⟩ := behind
      · cases h
      · have haccept : d.strictest (d'.strictest .accept) = .accept := by simpa [Except.map] using h
        rw [Decision.eq_accept_of_strictest haccept]

end Filter

theorem CellFilter.feed_some_state {φ : Type} [CellFilter φ] (f : φ) (cells : List Cell) :
    (feed (some f) cells).2 = some (feed f cells).2 := by
  induction cells generalizing f with
  | nil => rfl
  | cons c cs ih => exact ih (step f c).2

/-- A read gives what its visibility accepts of the cells that are put to it. -/
theorem Plan.accepted_of_mem {p : Plan} {v : Visibility} {cells out : List Cell} {c : Cell}
    (hvis : p.visibility = some v) (hv : CellFilter.Decides v (p.asked cells))
    (h : (p.run cells).1 = .ok out) (hc : c ∈ out) :
    ∃ before after, p.asked cells = before ++ c :: after ∧
      (CellFilter.step (CellFilter.feed v before).2 c).1 = .ok .accept := by
  obtain ⟨before, after, hsplit, haccept⟩ := Sweep.accepted_of_mem rfl h hc
  have hasked : p.asked cells = before ++ c :: after := hsplit
  have hfilter : p.filter = some ((Filter.visibility v).combine p.caller) := by simp [filter, hvis]
  rw [hasked] at hv
  rw [hfilter, CellFilter.feed_some_state] at haccept
  exact ⟨before, after, hasked, Filter.accepts_of_combine hv haccept⟩

/-- Along the versions of a run, columns do not go back and timestamps fall. -/
theorem Run.Ordered.inStoreOrder {cells : List Cell} (h : Run.Ordered cells)
    (hversions : ∀ c ∈ cells, c.isTombstone = false) : Cell.InStoreOrder cells :=
  (h.comesAfter hversions).imp fun hab => Cell.storeOrder_isLE.2 (hab _ rfl)

namespace Store

variable {s : Store} {r : Read} {v : View} {out : List Cell} {c m : Cell}

/-- The cells that a read puts to its filter are versions in the order of the store, and covered. -/
theorem asked_sublist_contents (s : Store) (p : Plan) :
    (p.asked s.contents).Sublist ((s.contents.filter p.covers).filter fun c => !c.isTombstone) :=
  p.sweep.asked_sublist {} p.filter (s.contents.filter p.covers)

/-- Whatever filter the caller adds, the visibility accepts what a read gives, in view of the cells
that were put to it before. -/
theorem read_accepts (h : (s.read (r.planFor v)).1 = .ok out) (hc : c ∈ out) :
    ∃ before after, (r.planFor v).asked s.contents = before ++ c :: after ∧
      Run.Ordered (before ++ c :: after) ∧ v.Accepts .userScan {d | d ∈ before} c := by
  have hcells := s.ordered_covered (r.planFor v)
  have hdecides : CellFilter.Decides ({ view := v, purpose := .userScan } : Visibility)
      ((r.planFor v).asked s.contents) := Visibility.decides_asked v .userScan _ {} _ hcells
  obtain ⟨before, after, hasked, haccept⟩ := Plan.accepted_of_mem rfl hdecides h hc
  have hsub := s.asked_sublist_contents (r.planFor v)
  rw [hasked] at hsub
  have hord : Run.Ordered (before ++ c :: after) := hcells.sublist (hsub.trans List.filter_sublist)
  have hversions : ∀ d ∈ before ++ c :: after, d.isTombstone = false := by
    intro d hd
    simpa using (List.mem_filter.1 (hsub.subset hd)).2
  obtain ⟨d, hd, hiff⟩ := Visibility.feed_accepts v .userScan (hord.inStoreOrder hversions)
  exact ⟨before, after, hasked, hord, hiff.1 (Except.ok.inj (hd.symm.trans haccept))⟩

/-- A candidate above a version that is put to the filter has been put to it before. -/
theorem WellFormed.candidate_asked (hw : s.WellFormed) (hm : v.Candidate s m)
    (hc : c ∈ (r.planFor v).asked s.contents) (hcol : c.column = m.column)
    (hlt : c.timestamp < m.timestamp) : m ∈ (r.planFor v).asked s.contents := by
  obtain ⟨hmem, hversion, hunmasked, hrange, -⟩ := (View.candidate_iff hw).1 hm
  have hcells := s.ordered_covered (r.planFor v)
  have hcov : (r.planFor v).covers c = true := (List.mem_filter.1 (Sweep.mem_of_asked hc).1).2
  have hmasked : ¬m.Masked (s.contents.filter (r.planFor v).covers) := by
    rintro ⟨t, ht, hrest⟩
    exact hunmasked ⟨t, (List.mem_filter.1 ht).1, hrest⟩
  apply Sweep.mem_asked_of_before rfl hcells hversion (View.contains_planFor_iff.2 hrange) hmasked
    (fun _ => rfl) _ hc hcol (Cell.key_lt_of_newer hcol.symm hlt)
  rw [List.mem_filter]
  exact ⟨hmem, (View.covers_congr hcol.symm).trans hcov⟩

/-- A passing version that is put to the filter is a covered candidate. -/
theorem WellFormed.candidate_of_asked (hw : s.WellFormed)
    (hc : c ∈ (r.planFor v).asked s.contents) (hp : v.Passes c) :
    Read.covers r.rows r.families c = true ∧ v.Candidate s c := by
  have hcells := s.ordered_covered (r.planFor v)
  obtain ⟨k, -, hadm⟩ := Sweep.admitted_of_asked hc
  have hrange : (r.planFor v).sweep.timeRange.contains c.timestamp = true := by
    simp only [Sweep.admits, Bool.and_eq_true] at hadm
    exact hadm.1.2
  obtain ⟨hmem, hversion⟩ := Sweep.mem_of_asked hc
  exact (View.offers_and_passes_iff hw).1
    ⟨⟨hmem, hversion, fun _ => Sweep.not_masked_of_asked rfl hcells hc, hrange⟩, hp⟩

/-- Whatever filter the caller adds, a read gives only what its reader is to be shown. -/
theorem WellFormed.read_shown (hw : s.WellFormed) (h : (s.read (r.planFor v)).1 = .ok out)
    (hc : c ∈ out) : Read.covers r.rows r.families c = true ∧ v.Shows s c := by
  obtain ⟨before, after, hasked, hord, hp, hunshadowed, hkind⟩ := read_accepts h hc
  have hcasked : c ∈ (r.planFor v).asked s.contents := by simp [hasked]
  obtain ⟨hcov, hcand⟩ := hw.candidate_of_asked hcasked hp
  have hplain : c.isDeleteMarker = false := by
    rw [Bool.eq_false_iff]
    intro hmark
    rw [if_pos hmark] at hkind
    cases hkind
  rw [if_neg (by simp [hplain])] at hkind
  have hnewer {m : Cell} (hm : v.Candidate s m) (hcol : m.column = c.column)
      (hlt : c.timestamp < m.timestamp) : m ∈ before := by
    have hreached := hw.candidate_asked hm hcasked hcol.symm hlt
    rw [hasked] at hreached
    exact hord.mem_left hreached (Cell.key_lt_of_newer hcol hlt)
  refine ⟨hcov, hcand, hplain, ?_, ?_⟩
  · rintro ⟨m, hm, hcol, hmark, hlt⟩
    exact hunshadowed ⟨m, hnewer hm hcol hlt, hcol, hm.passes, hmark, hlt⟩
  · rcases hkind with hown | hall | hfirst
    · exact .inl hown
    · cases hall
    · exact .inr fun ⟨d, hd, hcol, hlt⟩ => hfirst ⟨d, hnewer hd hcol hlt, hcol, hd.passes⟩

/-- No two candidates have the same column and timestamp. -/
theorem WellFormed.candidate_inj {d : Cell} (hw : s.WellFormed) (hc : v.Candidate s c)
    (hd : v.Candidate s d) (hcol : c.column = d.column) (hts : c.timestamp = d.timestamp) :
    c = d := by
  have hmem := ((View.candidate_iff hw).1 hc).1
  have hmem' := ((View.candidate_iff hw).1 hd).1
  apply (Run.ordered_merge s.sources).eq_of_key_eq hmem hmem'
  rw [Cell.key, Cell.key, hcol, hts, hc.version, hd.version]

/-- Whatever filter the caller adds, a read gives nothing at or below a delete marker that the reader
can see. -/
theorem WellFormed.read_above_marker (hw : s.WellFormed) (h : (s.read (r.planFor v)).1 = .ok out)
    (hm : v.Candidate s m) (hmarker : m.isDeleteMarker = true) (hc : c ∈ out)
    (hcol : c.column = m.column) : m.timestamp < c.timestamp := by
  have hshows := (hw.read_shown h hc).2
  by_contra hle
  rcases UInt64.lt_or_eq_of_le (UInt64.not_lt.1 hle) with hlt | heq
  · exact hshows.undeleted ⟨m, hm, hcol.symm, hmarker, hlt⟩
  · have hsame := hw.candidate_inj hshows.candidate hm hcol heq
    exact Bool.false_ne_true (hshows.plain.symm.trans (hsame ▸ hmarker))

end Store

end CellStore
