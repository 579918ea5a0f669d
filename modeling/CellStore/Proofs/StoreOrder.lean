import CellStore.Proofs.Reading
import CellStore.Proofs.Retaining

/-! # The order of the store

Whatever is done to a region, its memstore and its files stay runs and no file is empty. A
sweep puts some of the versions of a run to its filter, in the order of the run, so they come
to the filter column by column and with falling timestamps. A visibility filter has nothing to
object to then, neither by itself, nor behind the gate of a flush or compaction, nor in front
of the filter of a caller. What makes a read fail is therefore never a filter that the
processor installed.
-/
namespace CellStore

namespace Sweep

variable {φ : Type} [CellFilter φ]

/-- The cells that a sweep puts to its filter, up to the first error. -/
def asked (s : Sweep) : Cursor → φ → List Cell → List Cell
  | _, _, [] => []
  | k, f, c :: cs =>
    let k := k.enter c
    if c.isTombstone then
      if s.appliesTombstones then asked s (k.mask c.timestamp) f cs else asked s k f cs
    else if s.admits k c then
      c :: match CellFilter.step f c with
        | (.error _, _) => []
        | (.ok .accept, f) => asked s k.take f cs
        | (.ok .skip, f) => asked s k f cs
        | (.ok .skipColumn, f) => asked s k.skipColumn f cs
    else asked s k f cs

/-- The filter is asked about versions only, in the order of the run. -/
theorem asked_sublist (s : Sweep) (k : Cursor) (f : φ) (cells : List Cell) :
    (s.asked k f cells).Sublist (cells.filter fun c => !c.isTombstone) := by
  induction cells generalizing k f with
  | nil => exact .slnil
  | cons c cs ih =>
    cases htomb : c.isTombstone with
    | true =>
      simp only [asked, htomb, if_true]
      rw [List.filter_cons_of_neg (by simp [htomb])]
      split_ifs
      · exact ih _ f
      · exact ih _ f
    | false =>
      simp only [asked, htomb, Bool.false_eq_true, if_false]
      rw [List.filter_cons_of_pos (by simp [htomb])]
      split_ifs
      · apply List.Sublist.cons_cons
        split
        · exact List.nil_sublist _
        · exact ih _ _
        · exact ih _ _
        · exact ih _ _
      · exact (ih _ f).cons c

omit [CellFilter φ] in
@[simp] theorem keep_error {c : Cell} {r : Except Error (List Cell) × φ} {e : Error} :
    (keep c r).1 = .error e ↔ r.1 = .error e := by
  obtain ⟨_ | _, _⟩ := r <;> simp [keep, Except.map]

/-- An error of a sweep is the answer of its filter to one of the cells put to it. -/
theorem run_error {s : Sweep} {k : Cursor} {f : φ} {cells : List Cell} {e : Error}
    (h : (s.run k f cells).1 = .error e) : .error e ∈ (CellFilter.feed f (s.asked k f cells)).1 := by
  induction cells generalizing k f with
  | nil => cases h
  | cons c cs ih =>
    simp only [run] at h
    simp only [asked]
    split_ifs at h ⊢
    · exact ih h
    · exact ih (keep_error.1 h)
    · rw [CellFilter.feed_cons, List.mem_cons]
      generalize CellFilter.step f c = answer at h ⊢
      obtain ⟨e' | d, f'⟩ := answer
      · cases h
        exact .inl rfl
      · cases d with
        | accept => exact .inr (ih (keep_error.1 h))
        | skip => exact .inr (ih h)
        | skipColumn => exact .inr (ih h)
    · exact ih h

end Sweep

theorem Store.Change.filled {s s' : Store} (hc : s.Change s') (h : ∀ file ∈ s.files, file ≠ []) :
    ∀ file ∈ s'.files, file ≠ [] := by
  have hadd {file : List Cell} {files : List (List Cell)} (hfiles : ∀ f ∈ files, f ≠ []) :
      ∀ f ∈ Store.addFile file files, f ≠ [] := by
    unfold Store.addFile
    split_ifs with hempty
    · exact hfiles
    · simp only [List.mem_append, List.mem_singleton]
      rintro f (hf | rfl)
      · exact hfiles f hf
      · simpa using hempty
  cases hc with
  | keep => exact h
  | write cells => exact h
  | tend region scan u =>
    rcases s.tend_state region scan u with hstate | ⟨file, -, hstate⟩
    · rwa [hstate]
    · rw [hstate]
      cases u with
      | flush => exact hadd h
      | compact kind => exact hadd (by simp)

/-! ## Filters that find everything in order -/

/-- A filter answers every one of some cells with a decision. -/
def CellFilter.Decides {φ : Type} [CellFilter φ] (f : φ) (cells : List Cell) : Prop :=
  ∀ answer ∈ (CellFilter.feed f cells).1, ∃ d, answer = .ok d

/-- Along the versions of a run, each may come after the others. -/
theorem Run.Ordered.comesAfter {cells : List Cell} (h : Run.Ordered cells)
    (hversions : ∀ c ∈ cells, c.isTombstone = false) :
    cells.Pairwise fun a b => b.ComesAfter {a} := by
  apply List.Pairwise.imp_of_mem _ h
  rintro a b ha - hlt d rfl
  apply (Cell.column_le_of_key_lt hlt).imp id
  intro hcol
  exact ⟨hcol, UInt64.le_of_lt (Cell.newer_of_key_lt hlt hcol (hversions d ha))⟩

namespace Visibility

variable {f : Visibility} {judged : Set Cell} {cells : List Cell}

/-- A visibility filter decides on cells that come one after the other. -/
theorem Follows.decides (h : f.Follows judged) (hnext : ∀ c ∈ cells, c.ComesAfter judged)
    (hcells : cells.Pairwise fun a b => b.ComesAfter {a}) : CellFilter.Decides f cells := by
  induction cells generalizing f judged with
  | nil => simp [CellFilter.Decides]
  | cons c cs ih =>
    rw [List.forall_mem_cons] at hnext
    rw [List.pairwise_cons] at hcells
    obtain ⟨found, -, hok, hfollows, -⟩ := step_finds h hnext.1
    have hrest : CellFilter.Decides (f.step c).2 cs := by
      apply ih hfollows _ hcells.2
      intro d hd e he
      rcases Set.mem_insert_iff.1 he with rfl | he
      · exact hcells.1 d hd e rfl
      · exact hnext.2 d hd e he
    intro answer hanswer
    rw [CellFilter.feed_cons, List.mem_cons] at hanswer
    rcases hanswer with rfl | hanswer
    · exact ⟨_, hok⟩
    · exact hrest answer hanswer

/-- A new visibility filter decides on the cells that a sweep of a run puts to whatever filter. -/
theorem decides_asked {φ : Type} [CellFilter φ] (view : View) (purpose : Purpose) (s : Sweep)
    (k : Cursor) (g : φ) (hcells : Run.Ordered cells) :
    CellFilter.Decides ({ view, purpose } : Visibility) (s.asked k g cells) := by
  have hsub := s.asked_sublist k g cells
  have hversions : ∀ c ∈ s.asked k g cells, c.isTombstone = false := fun c hc => by
    simpa using (List.mem_filter.1 (hsub.subset hc)).2
  have hord : Run.Ordered (s.asked k g cells) := hcells.sublist (hsub.trans List.filter_sublist)
  have hfresh : Follows ({ view, purpose } : Visibility) ∅ := rfl
  exact hfresh.decides (by simp [Cell.ComesAfter]) (hord.comesAfter hversions)

end Visibility

namespace Filter

theorem feed_visibility (v : Visibility) (cells : List Cell) :
    (CellFilter.feed (visibility v) cells).1 = (CellFilter.feed v cells).1 := by
  induction cells generalizing v with
  | nil => rfl
  | cons c cs ih => exact congrArg ((v.step c).1 :: ·) (ih (v.step c).2)

/-- In a chain behind a visibility filter that decides on all cells, an error is the answer of the
filter behind it. -/
theorem error_mem_feed_chain {v : Visibility} {f : Filter} {cells : List Cell} {e : Error}
    (hv : CellFilter.Decides v cells)
    (h : .error e ∈ (CellFilter.feed (chain [visibility v, f]) cells).1) :
    .error e ∈ (CellFilter.feed f cells).1 := by
  induction cells generalizing v f with
  | nil => cases h
  | cons c cs ih =>
    obtain ⟨d, hd⟩ := hv (v.step c).1 (by simp [CellFilter.feed_cons, CellFilter.step])
    have hchain : CellFilter.step (chain [visibility v, f]) c =
        ((f.step c).1.map d.strictest, chain [visibility (v.step c).2, (f.step c).2]) := by
      simp only [CellFilter.step, step, stepAll, hd]
      generalize f.step c = answer
      obtain ⟨_ | _, _⟩ := answer <;> simp [Except.map]
    rw [CellFilter.feed_cons, hchain, List.mem_cons] at h
    rw [CellFilter.feed_cons, List.mem_cons]
    refine h.imp (fun h => ?_) fun h => ih (fun answer hanswer => hv answer ?_) h
    · change _ = (f.step c).1
      cases hf : (f.step c).1 with
      | error e' => simpa [hf, Except.map] using h
      | ok d' => simp [hf, Except.map] at h
    · rw [CellFilter.feed_cons]
      exact List.mem_cons_of_mem _ hanswer

end Filter

namespace CellFilter

variable {φ : Type} [CellFilter φ]

theorem feed_some (f : φ) (cells : List Cell) : (feed (some f) cells).1 = (feed f cells).1 := by
  induction cells generalizing f with
  | nil => rfl
  | cons c cs ih => exact congrArg ((step f c).1 :: ·) (ih (step f c).2)

theorem decides_none (cells : List Cell) : Decides (none : Option φ) cells := by
  induction cells with
  | nil => simp [Decides]
  | cons c cs ih =>
    intro answer hanswer
    rw [feed_cons, List.mem_cons] at hanswer
    rcases hanswer with rfl | hanswer
    · exact ⟨.accept, rfl⟩
    · exact ih answer hanswer

theorem Decides.error_notMem {f : φ} {cells : List Cell} (h : Decides f cells) (e : Error) :
    .error e ∉ (feed f cells).1 := by
  intro he
  obtain ⟨d, hd⟩ := h _ he
  cases hd

end CellFilter

namespace Plan

/-- The cells that a plan puts to its filter. -/
def asked (p : Plan) (cells : List Cell) : List Cell :=
  p.sweep.asked {} p.filter (cells.filter p.covers)

/-- Where the visibility of a plan decides on all cells, an error is the answer of the caller's
filter. -/
theorem run_error {p : Plan} {cells : List Cell} {e : Error} (h : (p.run cells).1 = .error e)
    (hv : ∀ v, p.visibility = some v → CellFilter.Decides v (p.asked cells)) :
    ∃ f, p.caller = some f ∧ .error e ∈ (CellFilter.feed f (p.asked cells)).1 := by
  have herror : .error e ∈ (CellFilter.feed p.filter (p.asked cells)).1 := Sweep.run_error h
  cases hvis : p.visibility with
  | none =>
    have hfilter : p.filter = p.caller := by simp [filter, hvis]
    rw [hfilter] at herror
    cases hcaller : p.caller with
    | none =>
      rw [hcaller] at herror
      exact absurd herror ((CellFilter.decides_none _).error_notMem e)
    | some f =>
      rw [hcaller, CellFilter.feed_some] at herror
      exact ⟨f, rfl, herror⟩
  | some v =>
    have hfilter : p.filter = some ((Filter.visibility v).combine p.caller) := by simp [filter, hvis]
    rw [hfilter, CellFilter.feed_some] at herror
    cases hcaller : p.caller with
    | none =>
      rw [hcaller, Filter.combine, Filter.feed_visibility] at herror
      exact absurd herror ((hv v hvis).error_notMem e)
    | some f =>
      rw [hcaller] at herror
      exact ⟨f, rfl, Filter.error_mem_feed_chain (hv v hvis) herror⟩

end Plan

namespace Host

variable {σ : Type} {h : Host σ} {r : Read} {s : Store} {e : Error}

/-- What the processor makes of a read. -/
def planned (h : Host σ) (r : Read) : Except Error Plan := (h.ask r.plan (·.planRead h.now r)).result

/-- Why a read fails. -/
inductive ReadFault (h : Host σ) (r : Read) : Error → Prop
  | closed (hs : h.store = none) : ReadFault h r closed
  | notStarted (hstage : h.processor.stage = .created) : ReadFault h r .notStarted
  | undecodable {bytes : Bytes} {e : Error}
    (hattr : r.attributes.get? Attributes.transactionKey = some bytes)
    (hdec : h.processor.codec.decode bytes = .error e) : ReadFault h r e
  /-- The caller's own filter answers a cell that is put to it with an error. -/
  | caller {s : Store} {p : Plan} {f : Filter} {e : Error} (hs : h.store = some s)
    (hplan : h.planned r = .ok p) (hf : r.filter = some f)
    (he : .error e ∈ (CellFilter.feed f (p.asked s.contents)).1) : ReadFault h r e

/-- The processor refuses a read, leaves it as it is, or plans it for a transaction. -/
theorem planned_cases (h : Host σ) (r : Read) :
    h.processor.Refuses ∧ h.planned r = .error .notStarted ∨
      (∃ bytes e, r.attributes.get? Attributes.transactionKey = some bytes ∧
        h.processor.codec.decode bytes = .error e ∧ h.planned r = .error e) ∨
      h.planned r = .ok r.plan ∨ ∃ v, h.planned r = .ok (r.planFor v) := by
  unfold planned ask
  split_ifs
  · rcases h.processor.refuses_or_serves with hrefuses | ⟨ctx, hserves⟩ | hstopped
    · exact .inl ⟨hrefuses, congrArg Outcome.result (Processor.serve_of_refuses hrefuses _ _)⟩
    · cases hattr : r.attributes.get? Attributes.transactionKey with
      | none =>
        refine .inr (.inr (.inl ((Processor.serve_of_serves hserves _ _).1.trans ?_)))
        simp [Attributes.transaction?, hattr]
      | some bytes =>
        rw [Processor.planRead_of_serves hserves h.now hattr]
        cases hdec : h.processor.codec.decode bytes with
        | error e => exact .inr (.inl ⟨bytes, e, rfl, hdec, rfl⟩)
        | ok t => exact .inr (.inr (.inr ⟨_, rfl⟩))
    · exact .inr (.inr (.inl (congrArg Outcome.result (Processor.serve_of_stopped hstopped _ _))))
  · exact .inr (.inr (.inl rfl))

theorem planned_ok {p : Plan} (hplan : h.planned r = .ok p) :
    p = r.plan ∨ ∃ v, p = r.planFor v := by
  rcases h.planned_cases r with ⟨-, hrefused⟩ | ⟨_, _, -, -, hrefused⟩ | hplain | ⟨v, hview⟩
  · simp [hrefused] at hplan
  · simp [hrefused] at hplan
  · exact .inl (Except.ok.inj (hplan.symm.trans hplain))
  · exact .inr ⟨v, Except.ok.inj (hplan.symm.trans hview)⟩

theorem planned_error (hagrees : h.processor.Agrees) (hplan : h.planned r = .error e) :
    h.ReadFault r e := by
  rcases h.planned_cases r with ⟨hrefuses, hrefused⟩ | ⟨_, _, hattr, hdec, hrefused⟩ | hplain | ⟨v, hview⟩
  · rw [Except.error.inj (hplan.symm.trans hrefused)]
    exact .notStarted (hagrees.refuses_iff.1 hrefuses)
  · rw [Except.error.inj (hplan.symm.trans hrefused)]
    exact .undecodable hattr hdec
  · simp [hplan] at hplain
  · simp [hplan] at hview

/-- The visibility that is installed for a read decides on all cells that the read puts to it. -/
theorem planned_decides {p : Plan} {v : Visibility} (hplan : h.planned r = .ok p)
    (hv : p.visibility = some v) (s : Store) : CellFilter.Decides v (p.asked s.contents) := by
  have hcells := s.ordered_covered p
  rcases planned_ok hplan with rfl | ⟨view, rfl⟩
  · cases hv
  · cases hv
    exact Visibility.decides_asked view .userScan _ {} _ hcells

theorem read_eq_planned (hs : h.store = some s) (r : Read) :
    (h.read r).result = match h.planned r with
      | .error e => .error e
      | .ok p => (s.read p).1 := by
  simp only [read, readWith, hs, planned]
  cases (h.ask r.plan (·.planRead h.now r)).result <;> rfl

variable [SnapshotSource σ]

/-- No read fails for a filter that the processor installed. -/
theorem readFault_of_error (hr : h.Reachable) (he : (h.read r).result = .error e) :
    h.ReadFault r e := by
  cases hs : h.store with
  | none =>
    simp only [read, readWith, hs] at he
    cases he
    exact .closed hs
  | some s =>
    rw [read_eq_planned hs] at he
    cases hplan : h.planned r with
    | error e' =>
      rw [hplan] at he
      cases he
      exact planned_error hr.agrees hplan
    | ok p =>
      rw [hplan] at he
      obtain ⟨f, hf, hmem⟩ := Plan.run_error he fun v hv => planned_decides hplan hv s
      rcases planned_ok hplan with rfl | ⟨v, rfl⟩
      · exact .caller hs hplan hf hmem
      · exact .caller hs hplan hf hmem

/-- A flush or compaction that nothing refuses succeeds. -/
theorem upkeep_error (hr : h.Reachable) {u : Upkeep} (he : (h.upkeep u).result = .error e) :
    e = closed ∨ e = .notStarted ∨ e = .snapshotUnavailable := by
  cases hs : h.store with
  | none =>
    rw [upkeep_eq, onStore, hs] at he
    cases he
    exact .inl rfl
  | some s =>
    rcases upkeep_cases hs (hr.wellFormed hs) u with ⟨e', hrefused, hwhy⟩ | ⟨_, _, _, _, -, hdone, -⟩
    · rw [hrefused] at he
      cases he
      exact .inr hwhy
    · rw [hdone] at he
      cases he

/-- A region in order. -/
structure InOrder (h : Host σ) : Prop where
  /-- Along every source the keys strictly increase. -/
  ordered : ∀ s, h.store = some s → ∀ r ∈ s.sources, Run.Ordered r
  /-- A source holds at most one tombstone and one version of a column and timestamp. -/
  single : ∀ s, h.store = some s → ∀ r ∈ s.sources, ∀ a ∈ r, ∀ b ∈ r, a.column = b.column →
    a.timestamp = b.timestamp → a.isTombstone = b.isTombstone → a = b
  filled : ∀ s, h.store = some s → ∀ file ∈ s.files, file ≠ []
  /-- The visibility installed for a read decides on every cell that is put to it. -/
  decides : ∀ s r p v, h.store = some s → h.planned r = .ok p → p.visibility = some v →
    CellFilter.Decides v (p.asked s.contents)
  read_fault : ∀ r e, (h.read r).result = .error e → h.ReadFault r e
  upkeep_fault : ∀ u e, (h.upkeep u).result = .error e →
    e = closed ∨ e = .notStarted ∨ e = .snapshotUnavailable

/-- Stores stay in order. Whatever was done to a region, with a processor or without, whether or
not it succeeded: its sources are runs and no file is empty, and no read, flush or compaction
fails for a filter that the processor installed. -/
theorem reachable_inOrder (hr : h.Reachable) : h.InOrder where
  ordered s hs := (hr.wellFormed hs).sources
  single s hs r hmem a ha b hb hcol htime htomb := by
    apply ((hr.wellFormed hs).sources r hmem).eq_of_key_eq ha hb
    rw [Cell.key, Cell.key, hcol, htime, htomb]
  filled s hs := hr.store_invariant (by simp) (fun _ _ hchange => hchange.filled) hs
  decides s _ _ _ _ hplan hv := planned_decides hplan hv s
  read_fault _ _ he := readFault_of_error hr he
  upkeep_fault _ _ he := upkeep_error hr he

/-- A region that got its cells out of order, some of them twice and one with the tag of a
tombstone. Its flush, its compaction and a read in between succeed, another read does not. -/
def scrambled : Host SnapshotCache :=
  (blank .messagePack).run
    [.put { row := [1], cells := [⟨⟨[1], [2], [4]⟩, 10, [7], []⟩, ⟨⟨[1], [2], [3]⟩, 10, [7], []⟩,
      ⟨⟨[1], [2], [3]⟩, 30, [8], []⟩, ⟨⟨[1], [2], [3]⟩, 30, [], [Tag.tombstone]⟩] }, .flush,
    .read { rows := .all, attributes := Attributes.set Attributes.transactionKey [] [] },
    .put { row := [1], cells := [⟨⟨[1], [2], [3]⟩, 40, [5], []⟩, ⟨⟨[1], [2], [3]⟩, 40, [6], []⟩] },
    .delete ⟨[1], [2], [4]⟩ 5, .publish (.clean 35 []), .read (.allFor .messagePack (.ofLists 40 35 [] [])),
    .compact .minor]

theorem scrambled_inOrder :
    scrambled.Reachable ∧ scrambled.store = some ⟨[⟨⟨[1], [2], [3]⟩, 40, [6], []⟩,
        ⟨⟨[1], [2], [4]⟩, 5, [], [Tag.tombstone]⟩],
      [[⟨⟨[1], [2], [3]⟩, 30, [], [Tag.tombstone]⟩, ⟨⟨[1], [2], [3]⟩, 30, [8], []⟩,
        ⟨⟨[1], [2], [3]⟩, 10, [7], []⟩, ⟨⟨[1], [2], [4]⟩, 10, [7], []⟩]]⟩ ∧
      scrambled.InOrder := by
  have hr : scrambled.Reachable := (blank_reachable _).run _
  exact ⟨hr, rfl, reachable_inOrder hr⟩

end Host

end CellStore
