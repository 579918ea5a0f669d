import CellStore.Filter
import CellStore.Proofs.Scans

/-! # Hints of composed filters

In a tree of filters a hint comes from one visibility filter and keeps the rest of the column from
all others too, which then know less of the column than they would. None of this shows in what is
accepted. The filter that gave the hint accepts nothing more of the column, so the tree does not
either, and with the next column every filter forgets what it knew of this one.
-/
namespace CellStore

/-- The gate without its counts. -/
def Gate.uncounted (g : Gate) : Gate := { g with retainedUnsettled := 0, droppedInvalid := 0 }

theorem Gate.rule_uncounted (g : Gate) (c : Cell) :
    (g.uncounted.rule c).map (fun p => (p.1, p.2.uncounted)) =
      (g.rule c).map fun p => (p.1, p.2.uncounted) := by
  unfold rule uncounted
  dsimp only
  split_ifs <;> rfl

theorem Gate.uncounted_eq_iff {g g' : Gate} :
    g.uncounted = g'.uncounted ↔ g.boundary = g'.boundary ∧ g.invalid = g'.invalid := by
  simp [uncounted]

theorem Gate.uncounted_of_rule {g g' : Gate} {c : Cell} {decision : Decision}
    (h : g.rule c = some (decision, g')) : g'.uncounted = g.uncounted := by
  unfold rule at h
  split_ifs at h <;> cases h <;> rfl

theorem Gate.rule_eq_none {g : Gate} {c : Cell} : g.rule c = none ↔ c.timestamp ≤ g.boundary := by
  rw [← UInt64.not_lt]
  unfold rule
  split_ifs <;> simp_all

theorem Gate.rule_ne_hint {g g' : Gate} {c : Cell} : g.rule c ≠ some (.skipColumn, g') := by
  unfold rule
  split_ifs <;> simp

namespace Filter

variable {f g : Filter} {members : List Filter} {c d : Cell} {column column' : Column}
variable {decision : Decision}

/-- A tree of visibility filters, retention filters, chains and predicates to which no cell has been
put yet. -/
inductive Fresh : Filter → Prop
  | visibility (view : View) (purpose : Purpose) : Fresh (.visibility { view, purpose })
  | retention (gate : Gate) {inner : Filter} (h : Fresh inner) : Fresh (.retention gate inner)
  | chain {members : List Filter} (h : ∀ f ∈ members, Fresh f) : Fresh (.chain members)
  | predicate (keep : Cell → Bool) : Fresh (.predicate keep)

theorem Fresh.combine {first : Filter} {second : Option Filter} (hfirst : first.Fresh)
    (hsecond : ∀ f ∈ second, f.Fresh) : (first.combine second).Fresh := by
  cases second with
  | none => exact hfirst
  | some second => exact .chain (by simpa using ⟨hfirst, hsecond second rfl⟩)

/-- A tree of this kind of which no part has gone beyond a cell. -/
inductive Ready (c : Cell) : Filter → Prop
  | visibility {v : Visibility} (h : ∀ p ∈ v.place, p.UpTo c) : Ready c (.visibility v)
  | retention {gate : Gate} {inner : Filter} (h : Ready c inner) : Ready c (.retention gate inner)
  | chain {members : List Filter} (h : ∀ f ∈ members, Ready c f) : Ready c (.chain members)
  | predicate {keep : Cell → Bool} : Ready c (.predicate keep)

theorem Fresh.ready (h : f.Fresh) (c : Cell) : f.Ready c := by
  induction h with
  | visibility view purpose => exact .visibility (by simp)
  | retention gate _ ih => exact .retention ih
  | chain _ ih => exact .chain ih
  | predicate keep => exact .predicate

theorem Ready.trans (h : f.Ready c) (hcd : c.storeOrder d = .lt) : f.Ready d := by
  induction h with
  | visibility h => exact .visibility fun p hp => (h p hp).trans hcd
  | retention _ ih => exact .retention ih
  | chain _ ih => exact .chain ih
  | predicate => exact .predicate

/-- A chain whose members all decide decides, and all of them have then judged the cell. -/
theorem stepAll_of_ok (h : ∀ f ∈ members, ∃ decision, (f.step c).1 = .ok decision) :
    (∃ decision, (stepAll members c).1 = .ok decision) ∧
      (stepAll members c).2 = members.map fun f => (f.step c).2 := by
  induction members with
  | nil => exact ⟨⟨.accept, rfl⟩, rfl⟩
  | cons f fs ih =>
    obtain ⟨⟨d, hd⟩, hfs⟩ := List.forall_mem_cons.1 h
    obtain ⟨⟨rest, hrest⟩, hstate⟩ := ih hfs
    cases hf : f.step c with
    | mk answer f' =>
      rw [hf] at hd
      cases hd
      simp [stepAll, hf, hrest, hstate, Except.map]

/-- If a chain decides, so does each member, and one of them is as strict as the chain. -/
theorem ok_of_stepAll (h : (stepAll members c).1 = .ok decision) :
    (∀ f ∈ members, ∃ d, (f.step c).1 = .ok d ∧ d.strictness ≤ decision.strictness) ∧
      (decision = .accept ∨ ∃ f ∈ members, (f.step c).1 = .ok decision) := by
  induction members generalizing decision with
  | nil =>
    cases h
    simp
  | cons f fs ih =>
    cases hf : f.step c with
    | mk answer f' =>
      cases answer with
      | error e => simp [stepAll, hf] at h
      | ok d =>
        simp only [stepAll, hf] at h
        cases hrest : (stepAll fs c).1 with
        | error e => simp [hrest, Except.map] at h
        | ok rest =>
          simp only [hrest, Except.map, Except.ok.injEq] at h
          obtain ⟨hall, hsome⟩ := ih hrest
          have hmax := Decision.strictest_strictness d rest
          rw [h] at hmax
          refine ⟨List.forall_mem_cons.2 ⟨⟨d, by rw [hf], by omega⟩, fun f hf => ?_⟩, ?_⟩
          · obtain ⟨d', hd', hle⟩ := hall f hf
            exact ⟨d', hd', by omega⟩
          · unfold Decision.strictest at h
            split_ifs at h
            · subst h
              rcases hsome with haccept | ⟨f, hf, hd⟩
              · exact .inl haccept
              · exact .inr ⟨f, List.mem_cons_of_mem _ hf, hd⟩
            · subst h
              exact .inr ⟨f, List.mem_cons_self, by rw [hf]⟩

/-- A cell that may come next is decided on, and no part of the tree then stands beyond it. -/
theorem Ready.step (h : f.Ready c) :
    (∃ decision, (f.step c).1 = .ok decision) ∧ (f.step c).2.Ready c := by
  induction h with
  | visibility h =>
    obtain ⟨hok, hplace⟩ := Visibility.step_ready h
    exact ⟨hok, .visibility hplace⟩
  | @retention gate inner h ih =>
    unfold Filter.step
    cases gate.rule c with
    | none => exact ⟨ih.1, .retention ih.2⟩
    | some p => exact ⟨⟨p.1, rfl⟩, .retention h⟩
  | chain h ih =>
    obtain ⟨hok, hstate⟩ := stepAll_of_ok fun f hf => (ih f hf).1
    refine ⟨hok, ?_⟩
    rw [Filter.step, hstate]
    refine .chain fun g hg => ?_
    obtain ⟨f, hf, rfl⟩ := List.mem_map.1 hg
    exact (ih f hf).2
  | predicate => exact ⟨⟨_, rfl⟩, .predicate⟩

/-! ### What a tree knows of earlier columns -/

mutual

/-- The tree without what it knows of the columns before this one, and without its counts. -/
def forget (column : Column) : Filter → Filter
  | visibility v => visibility (v.forget column)
  | retention gate inner => retention gate.uncounted (forget column inner)
  | chain members => chain (forgetAll column members)
  | predicate keep => predicate keep
  | custom respond seen => custom respond seen

def forgetAll (column : Column) : List Filter → List Filter
  | [] => []
  | f :: fs => forget column f :: forgetAll column fs

end

theorem forgetAll_eq_map (column : Column) (fs : List Filter) :
    forgetAll column fs = fs.map (forget column) := by
  induction fs with
  | nil => rfl
  | cons f fs ih => rw [forgetAll, ih, List.map_cons]

mutual

theorem forget_forget (h : (compare column column').isLE = true) :
    ∀ f : Filter, (f.forget column).forget column' = f.forget column'
  | visibility v => by rw [forget, forget, forget, Visibility.forget_forget h]
  | retention gate inner => by
    rw [forget, forget, forget, forget_forget h inner]
    rfl
  | chain members => by rw [forget, forget, forget, forgetAll_forgetAll h members]
  | predicate keep => rfl
  | custom respond seen => rfl

theorem forgetAll_forgetAll (h : (compare column column').isLE = true) :
    ∀ fs : List Filter, forgetAll column' (forgetAll column fs) = forgetAll column' fs
  | [] => rfl
  | f :: fs => by
    rw [forgetAll, forgetAll, forgetAll, forget_forget h f, forgetAll_forgetAll h fs]

end

mutual

/-- A cell is judged by what the tree knows from its column on. -/
theorem step_forget (c : Cell) : ∀ f : Filter,
    ((f.forget c.column).step c).1 = (f.step c).1 ∧
      ((f.forget c.column).step c).2.forget c.column = (f.step c).2.forget c.column
  | visibility v => by
    obtain ⟨hanswer, hstate⟩ := Visibility.step_forget v c
    exact ⟨hanswer, congrArg visibility hstate⟩
  | retention gate inner => by
    obtain ⟨hanswer, hstate⟩ := step_forget c inner
    have hrule := gate.rule_uncounted c
    rw [forget]
    unfold step
    cases hgate : gate.rule c with
    | none =>
      rw [hgate, Option.map_none, Option.map_eq_none_iff] at hrule
      rw [hrule]
      refine ⟨hanswer, ?_⟩
      dsimp only
      rw [forget, forget, hstate]
      rfl
    | some p =>
      rw [hgate, Option.map_some, Option.map_eq_some_iff] at hrule
      obtain ⟨q, hq, hpair⟩ := hrule
      obtain ⟨hdecision, hcounts⟩ := Prod.mk.inj hpair
      rw [hq]
      dsimp only
      rw [forget, forget, hdecision, hcounts, forget_forget (by simp)]
      exact ⟨rfl, rfl⟩
  | chain members => by
    obtain ⟨hanswer, hstate⟩ := stepAll_forget c members
    exact ⟨hanswer, congrArg chain hstate⟩
  | predicate keep => ⟨rfl, rfl⟩
  | custom respond seen => ⟨rfl, rfl⟩

theorem stepAll_forget (c : Cell) : ∀ fs : List Filter,
    (stepAll (forgetAll c.column fs) c).1 = (stepAll fs c).1 ∧
      forgetAll c.column (stepAll (forgetAll c.column fs) c).2 = forgetAll c.column (stepAll fs c).2
  | [] => ⟨rfl, rfl⟩
  | f :: fs => by
    obtain ⟨hanswer, hstate⟩ := step_forget c f
    obtain ⟨hanswers, hstates⟩ := stepAll_forget c fs
    rw [forgetAll]
    unfold stepAll
    cases hf : f.step c with
    | mk answer f' =>
      cases hg : (f.forget c.column).step c with
      | mk answer' g' =>
        rw [hf, hg] at hanswer hstate
        dsimp only at hanswer hstate
        subst hanswer
        cases answer' with
        | error e =>
          dsimp only
          rw [forgetAll, forgetAll, hstate, forgetAll_forgetAll (by simp)]
          exact ⟨rfl, rfl⟩
        | ok d => simp only [forgetAll, hstate, hanswers, hstates, and_self]

end

/-- Trees that know the same from the column of a cell on judge it alike, and still know the same. -/
theorem step_congr (h : f.forget c.column = g.forget c.column) :
    (f.step c).1 = (g.step c).1 ∧ (f.step c).2.forget c.column = (g.step c).2.forget c.column := by
  obtain ⟨hf, hf'⟩ := step_forget c f
  obtain ⟨hg, hg'⟩ := step_forget c g
  rw [h] at hf hf'
  exact ⟨hf.symm.trans hg, hf'.symm.trans hg'⟩

/-- In a later column nothing of a cell is known. -/
theorem Ready.forget_step (h : f.Ready c) (hlt : compare c.column column = .lt) :
    (f.step c).2.forget column = f.forget column := by
  induction h with
  | @visibility v h => exact congrArg Filter.visibility (Visibility.forget_step hlt v)
  | @retention gate inner h ih =>
    unfold Filter.step
    cases hgate : gate.rule c with
    | none =>
      dsimp only
      rw [forget, forget, ih]
    | some p =>
      dsimp only
      rw [forget, forget, Gate.uncounted_of_rule hgate]
  | chain h ih =>
    obtain ⟨-, hstate⟩ := stepAll_of_ok fun f hf => (h f hf).step.1
    rw [Filter.step, forget, forget, hstate, forgetAll_eq_map, forgetAll_eq_map, List.map_map]
    exact congrArg Filter.chain (List.map_congr_left ih)
  | predicate => rfl

/-! ### Columns that are spent -/

/-- Some part of the tree that is asked about the rest of the column accepts nothing of it. -/
inductive Spent (c : Cell) : Filter → Prop
  | visibility {v : Visibility} (h : v.Spent c) : Spent c (.visibility v)
  | retention {gate : Gate} {inner : Filter} (hle : c.timestamp ≤ gate.boundary)
    (h : Spent c inner) : Spent c (.retention gate inner)
  | chain {f : Filter} {members : List Filter} (hf : f ∈ members) (h : Spent c f) :
    Spent c (.chain members)

/-- After a hint the column is spent. -/
theorem Ready.spent_of_hint (h : f.Ready c) (hhint : (f.step c).1 = .ok .skipColumn) :
    (f.step c).2.Spent c := by
  induction h with
  | visibility h => exact .visibility (Visibility.spent_of_hint hhint)
  | @retention gate inner h ih =>
    unfold Filter.step at hhint ⊢
    cases hgate : gate.rule c with
    | none =>
      rw [hgate] at hhint
      exact .retention (Gate.rule_eq_none.1 hgate) (ih hhint)
    | some p =>
      -- The gate itself gives no hint.
      obtain ⟨decision, gate'⟩ := p
      rw [hgate] at hhint
      cases hhint
      exact absurd hgate Gate.rule_ne_hint
  | chain h ih =>
    obtain ⟨-, hstate⟩ := stepAll_of_ok fun f hf => (h f hf).step.1
    obtain ⟨f, hf, hd⟩ := (ok_of_stepAll hhint).2.resolve_left (by decide)
    rw [Filter.step, hstate]
    exact .chain (List.mem_map_of_mem hf) (ih f hf hd)
  | @predicate keep =>
    rw [Filter.step] at hhint
    split_ifs at hhint <;> cases hhint

/-- A tree accepts nothing of the rest of a spent column, and the column stays spent. -/
theorem Spent.step (h : f.Spent c) (hready : f.Ready d) (hcol : d.column = c.column)
    (hlt : d.timestamp < c.timestamp) (hd : (f.step d).1 = .ok decision) :
    decision ≠ .accept ∧ (f.step d).2.Spent d := by
  induction h generalizing decision with
  | visibility h =>
    obtain ⟨hrejects, hspent⟩ := h.step hcol hlt hd
    exact ⟨hrejects, .visibility hspent⟩
  | @retention gate inner hle h ih =>
    have hle' : d.timestamp ≤ gate.boundary := UInt64.le_trans (UInt64.le_of_lt hlt) hle
    cases hready with
    | retention hready =>
      unfold Filter.step at hd ⊢
      rw [Gate.rule_eq_none.2 hle'] at hd ⊢
      obtain ⟨hrejects, hspent⟩ := ih hready hd
      exact ⟨hrejects, .retention hle' hspent⟩
  | @chain f members hf h ih =>
    cases hready with
    | chain hready =>
      obtain ⟨-, hstate⟩ := stepAll_of_ok fun f hf => (hready f hf).step.1
      obtain ⟨d', hd', hstrict⟩ := (ok_of_stepAll hd).1 f hf
      obtain ⟨hrejects, hspent⟩ := ih (hready f hf) hd'
      rw [Filter.step, hstate]
      refine ⟨?_, .chain (List.mem_map_of_mem hf) hspent⟩
      rintro rfl
      cases d' <;> simp_all [Decision.strictness]

/-! ### Two hosts -/

/-- How the trees of two hosts compare, one that was given every cell and one that has left a
column or none. They know the same of all columns to come, and nothing of the one that was left will
be accepted. -/
structure InStep (left : Option Column) (f g : Filter) (cells : List Cell) : Prop where
  ready : ∀ c ∈ cells, f.Ready c
  alike : ∀ c ∈ cells, left ≠ some c.column → f.forget c.column = g.forget c.column
  spent : ∀ c ∈ cells, left = some c.column →
    ∃ d, f.Spent d ∧ d.column = c.column ∧ c.timestamp < d.timestamp

variable {left : Option Column} {cells : List Cell}

theorem InStep.ready_rest (h : InStep left f g (c :: cells))
    (hcells : Cell.InStrictOrder (c :: cells)) : ∀ e ∈ cells, (f.step c).2.Ready e := by
  intro e he
  exact ((h.ready c List.mem_cons_self).step.2).trans ((List.pairwise_cons.1 hcells).1 e he)

/-- In a column that one host has left, the other one is given another cell and takes none. -/
theorem InStep.behind (h : InStep left f g (c :: cells)) (hcells : Cell.InStrictOrder (c :: cells))
    (hleft : left = some c.column) : ∃ decision, (f.step c).1 = .ok decision ∧ decision ≠ .accept ∧
      InStep left (f.step c).2 g cells := by
  have hready := h.ready c List.mem_cons_self
  have hlater := (List.pairwise_cons.1 hcells).1
  obtain ⟨decision, hok⟩ := hready.step.1
  obtain ⟨d, hspent, hcol, hlt⟩ := h.spent c List.mem_cons_self hleft
  obtain ⟨hrejects, hspent'⟩ := hspent.step hready hcol.symm hlt hok
  refine ⟨decision, hok, hrejects, h.ready_rest hcells, fun e he hne => ?_, fun e he hcol' => ?_⟩
  · have hcolumns : c.column ≠ e.column := fun heq => hne (hleft.trans (congrArg some heq))
    have hnext := (Cell.storeOrder_eq_lt.1 (hlater e he)).resolve_right fun heq => hcolumns heq.1
    rw [hready.forget_step hnext, h.alike e (List.mem_cons_of_mem c he) hne]
  · have hcolumns : c.column = e.column := Option.some.inj (hleft.symm.trans hcol')
    have hnext := (Cell.storeOrder_eq_lt.1 (hlater e he)).resolve_left (by simp [hcolumns])
    exact ⟨c, hspent', hcolumns, hnext.2⟩

/-- Given the same cell, both trees give the same answer, and a hint lets one host leave the column. -/
theorem InStep.together (h : InStep left f g (c :: cells)) (hcells : Cell.InStrictOrder (c :: cells))
    (hleft : left ≠ some c.column) : ∃ decision, (f.step c).1 = .ok decision ∧
      (g.step c).1 = .ok decision ∧ InStep none (f.step c).2 (g.step c).2 cells ∧
      (decision = .skipColumn → InStep (some c.column) (f.step c).2 (g.step c).2 cells) := by
  have hready := h.ready c List.mem_cons_self
  have hlater := (List.pairwise_cons.1 hcells).1
  obtain ⟨decision, hok⟩ := hready.step.1
  obtain ⟨hanswer, hstate⟩ := step_congr (h.alike c List.mem_cons_self hleft)
  have hnext : ∀ e ∈ cells, (f.step c).2.forget e.column = (g.step c).2.forget e.column := by
    intro e he
    have hle := Cell.column_isLE_of_storeOrder (hlater e he)
    rw [← forget_forget hle, ← forget_forget hle (g.step c).2, hstate]
  have hrest := h.ready_rest hcells
  refine ⟨decision, hok, hanswer.symm.trans hok, ⟨hrest, fun e he _ => hnext e he, ?_⟩,
    fun hhint => ⟨hrest, fun e he _ => hnext e he, fun e he hcol => ?_⟩⟩
  · intro e he hcol
    cases hcol
  · subst hhint
    have hcolumns : c.column = e.column := Option.some.inj hcol
    have holder := (Cell.storeOrder_eq_lt.1 (hlater e he)).resolve_left (by simp [hcolumns])
    exact ⟨c, hready.spent_of_hint hok, hcolumns, holder.2⟩

/-- Hosts whose trees compare like this take the same cells. -/
theorem InStep.scan (h : InStep left f g cells) (hcells : Cell.InStrictOrder cells) :
    ∃ kept, CellFilter.scan false none f cells = .ok kept ∧
      CellFilter.scan true left g cells = .ok kept := by
  induction cells generalizing left f g with
  | nil => exact ⟨[], rfl, rfl⟩
  | cons c cs ih =>
    have hcs := (List.pairwise_cons.1 hcells).2
    have hnone : none ≠ some c.column := by simp
    -- Either only one host asks about the cell, and takes nothing, or both do and hear the same.
    by_cases hleft : left = some c.column
    · obtain ⟨decision, hok, hrejects, hnext⟩ := h.behind hcells hleft
      obtain ⟨kept, hall, hheeding⟩ := ih hnext hcs
      rw [CellFilter.scan_asked false cs hnone hok, CellFilter.scan_left true g cs hleft, if_neg hrejects]
      exact ⟨kept, hall, hheeding⟩
    · obtain ⟨decision, hf, hg, hnext, hhint⟩ := h.together hcells hleft
      rw [CellFilter.scan_asked false cs hnone hf, CellFilter.scan_asked true cs hleft hg]
      cases decision with
      | accept =>
        obtain ⟨kept, hall, hheeding⟩ := ih hnext hcs
        exact ⟨c :: kept, congrArg (Except.map (c :: ·)) hall, congrArg (Except.map (c :: ·)) hheeding⟩
      | skip => exact ih hnext hcs
      | skipColumn => exact ih (hhint rfl) hcs

theorem Fresh.inStep (hf : f.Fresh) (cells : List Cell) : InStep none f f cells where
  ready c _ := hf.ready c
  alike _ _ _ := rfl
  spent := by simp

/-- Whether a host heeds the hints of a tree of filters does not show in what it takes. Both kinds
take the same cells, without an error, and so does a sweep of a run without tombstones. -/
theorem Fresh.scan_regardless (hf : f.Fresh) (hcells : Cell.InStrictOrder cells) :
    ∃ kept, (∀ heeds, CellFilter.scan heeds none f cells = .ok kept) ∧
      ((∀ c ∈ cells, c.isTombstone = false) → ∀ applies,
        (Sweep.run { appliesTombstones := applies } {} f cells).1 = .ok kept) := by
  obtain ⟨kept, hall, hheeding⟩ := (hf.inStep cells).scan hcells
  refine ⟨kept, Bool.rec hall hheeding, fun hversions applies => ?_⟩
  exact (Sweep.run_eq_scan applies {} f hversions rfl).trans hheeding

/-- A read of transaction 20 in front of what a major compaction would keep of values that are not
empty. -/
def nested : Filter :=
  let compacted := visibility { view := .ofTwenty, purpose := .dropDeletes }
  let inner := chain [retention ⟨15, .ofList [3], 0, 0⟩ compacted,
    predicate fun c => !c.value.isEmpty]
  (visibility { view := .ofTwenty, purpose := .userScan }).combine (some inner)

/-- A column that the read leaves before its delete marker, and a column of another family. -/
def columns : List Cell :=
  let column : Column := ⟨[1], [2], [3]⟩
  [⟨column, 20, [7], []⟩, ⟨column, 14, [7], []⟩, ⟨column, 13, [7], []⟩,
    ⟨column, 10, [7], [Tag.deleteMarker]⟩, ⟨⟨[1], [4], [3]⟩, 9, [7], []⟩, ⟨⟨[1], [4], [3]⟩, 3, [7], []⟩,
    ⟨⟨[1], [4], [3]⟩, 2, [7], []⟩]

example : (CellFilter.feed nested columns).1 =
    [.ok .accept, .ok .skipColumn, .ok .skipColumn, .ok .skipColumn, .ok .accept, .ok .skip,
      .ok .skipColumn] := rfl

theorem nested_fresh : nested.Fresh := by
  unfold nested
  refine .combine (.visibility _ _) fun f hf => ?_
  cases hf
  refine .chain fun f hf => ?_
  simp only [List.mem_cons, List.not_mem_nil, or_false] at hf
  rcases hf with rfl | rfl
  · exact .retention _ (.visibility _ _)
  · exact .predicate _

theorem scan_regardless_nested : Cell.InStrictOrder columns ∧ ∃ kept,
    (∀ heeds, CellFilter.scan heeds none nested columns = .ok kept) ∧
      ((∀ c ∈ columns, c.isTombstone = false) → ∀ applies,
        (Sweep.run { appliesTombstones := applies } {} nested columns).1 = .ok kept) := by
  have hcolumns : Cell.InStrictOrder columns := by decide
  exact ⟨hcolumns, nested_fresh.scan_regardless hcolumns⟩

end Filter

end CellStore
