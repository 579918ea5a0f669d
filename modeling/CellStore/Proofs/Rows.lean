import CellStore.Proofs.FailedOperations
import CellStore.Proofs.Hints
import CellStore.Proofs.StoreOrder

/-! # Reads by rows

A scan takes one filter and one cursor through all of its rows, and still every row is read as if it
were the first. The cursor starts afresh with a column, and so does a visibility filter, which knows
nothing of the columns that it has left. So a scan can be cut at any row into two that are made one
after the other, and to read one row is to scan from it up to the next row that there could be.
-/
namespace CellStore

/-- Between a byte string and the same with a zero behind it there is no other. -/
theorem Bytes.between_zero_iff {row x : Bytes} :
    (compare x row).isGE = true ∧ (compare x (row ++ [0])).isLT = true ↔ x = row := by
  induction row generalizing x with
  | nil =>
    cases x with
    | nil => decide
    | cons y ys =>
      have hge : compare y 0 ≠ .lt := by simp [Std.compare_eq_lt]
      cases hy : compare y 0 <;> cases ys <;> simp_all [List.compare_cons_cons]
  | cons z row ih =>
    cases x with
    | nil => simp
    | cons y ys =>
      rw [List.cons_append, List.compare_cons_cons, List.compare_cons_cons, List.cons.injEq]
      cases hyz : compare y z with
      | lt =>
        have hne : y ≠ z := fun heq => by simp [heq] at hyz
        simp [hne]
      | eq => simpa [Std.compare_eq_iff_eq.1 hyz] using ih
      | gt =>
        have hne : y ≠ z := fun heq => by simp [heq] at hyz
        simp [hne]

namespace Rows

variable {a b x y : Bytes} {stop : Option Bytes}

theorem one_contains (row x : Bytes) :
    (one row).contains x = (between row (some (row ++ [0]))).contains x := by
  rw [Bool.eq_iff_iff]
  simp only [contains, Bool.and_eq_true, Bytes.between_zero_iff, beq_iff_eq]

/-- The rows up to a middle one and those from it on are all rows. -/
theorem contains_cut (hab : (compare a b).isLE = true)
    (hstop : ∀ c ∈ stop, (compare b c).isLE = true) (x : Bytes) : (between a stop).contains x =
      ((between a (some b)).contains x || (between b stop).contains x) := by
  cases hxb : compare x b with
  | lt =>
    have hend : ∀ c ∈ stop, compare x c = .lt := fun c hc =>
      Std.TransCmp.lt_of_lt_of_isLE hxb (hstop c hc)
    cases stop <;> simp_all [contains]
  | eq =>
    obtain rfl := Std.compare_eq_iff_eq.1 hxb
    simp [contains, Std.OrientedCmp.isGE_iff_isLE.2 hab]
  | gt =>
    have hge : (compare x a).isGE = true :=
      Std.TransCmp.isGE_trans (b := b) (by simp [hxb]) (Std.OrientedCmp.isGE_iff_isLE.2 hab)
    simp [contains, hxb, hge]

theorem lt_of_contains_cut (hx : (between a (some b)).contains x = true)
    (hy : (between b stop).contains y = true) : compare x y = .lt := by
  simp only [contains, Bool.and_eq_true] at hx hy
  have hxb : compare x b = .lt := by simpa using hx.2
  exact Std.TransCmp.lt_of_lt_of_isLE hxb (Std.OrientedCmp.isGE_iff_isLE.1 hy.1)

end Rows

theorem Column.lt_of_row_lt {a b : Column} (h : compare a.row b.row = .lt) : compare a b = .lt := by
  change compareLex (compareOn row) (compareLex (compareOn family) (compareOn qualifier)) a b = .lt
  simp [compareLex, compareOn, h]

section

variable {a b : Bytes} {stop : Option Bytes} {families : List Bytes} {c d : Cell}

/-- The cells of the rows up to a middle one come before those of the other rows. -/
theorem Read.column_lt_of_covers_cut (hc : Read.covers (.between a (some b)) families c = true)
    (hd : Read.covers (.between b stop) families d = true) : compare c.column d.column = .lt := by
  simp only [Read.covers, Bool.and_eq_true] at hc hd
  exact Column.lt_of_row_lt (Rows.lt_of_contains_cut hc.1 hd.1)

theorem Run.Ordered.filter_covers_cut {cells : List Cell} (hcells : Run.Ordered cells)
    (hab : (compare a b).isLE = true) (hstop : ∀ c ∈ stop, (compare b c).isLE = true) :
    cells.filter (Read.covers (.between a stop) families) =
      cells.filter (Read.covers (.between a (some b)) families) ++
        cells.filter (Read.covers (.between b stop) families) := by
  apply (hcells.sublist List.filter_sublist).ext
  · refine List.pairwise_append.2 ⟨hcells.sublist List.filter_sublist,
      hcells.sublist List.filter_sublist, fun c hc d hd => Key.compare_eq_lt.2 (.inl ?_)⟩
    exact Read.column_lt_of_covers_cut (List.mem_filter.1 hc).2 (List.mem_filter.1 hd).2
  · intro c
    simp only [List.mem_append, List.mem_filter, Read.covers, Rows.contains_cut hab hstop,
      Bool.and_or_distrib_right, Bool.or_eq_true, and_or_left]

end

/-! ## Cutting a sweep -/

namespace Filter

variable {f g : Option Filter} {c : Cell} {column column' : Column}

/-- What two filters of a sweep know of a column, and of all that come after it, is the same. -/
def AgreeFrom (column : Column) (f g : Option Filter) : Prop :=
  f.map (forget column) = g.map (forget column)

theorem AgreeFrom.later (h : AgreeFrom column f g) (hle : (compare column column').isLE = true) :
    AgreeFrom column' f g := by
  unfold AgreeFrom at h ⊢
  cases f <;> cases g <;> simp_all
  rw [← forget_forget hle, h, forget_forget hle]

theorem AgreeFrom.step (h : AgreeFrom c.column f g) :
    (CellFilter.step f c).1 = (CellFilter.step g c).1 ∧
      AgreeFrom c.column (CellFilter.step f c).2 (CellFilter.step g c).2 := by
  unfold AgreeFrom at h ⊢
  cases f <;> cases g <;> simp_all [CellFilter.step]
  exact step_congr h

/-- A filter that judges a cell still knows the same of the columns behind it. -/
theorem agreeFrom_step (hready : ∀ g ∈ f, g.Ready c) (hlt : compare c.column column = .lt) :
    AgreeFrom column (CellFilter.step f c).2 f := by
  cases f with
  | none => rfl
  | some f => exact congrArg some ((hready f rfl).forget_step hlt)

theorem ready_step {d : Cell} (hready : ∀ g ∈ f, g.Ready c) (hcd : c.storeOrder d = .lt) :
    ∀ g ∈ (CellFilter.step f c).2, g.Ready d := by
  cases f with
  | none => simp [CellFilter.step]
  | some f =>
    rintro _ ⟨⟩
    exact (hready f rfl).step.2.trans hcd

end Filter

namespace Sweep

/-- What two sweeps in a row give together, if neither fails. -/
def join (first second : Except Error (List Cell)) : Except Error (List Cell) := do
  return (← first) ++ (← second)

@[simp] theorem nil_join (result : Except Error (List Cell)) : join (.ok []) result = result := by
  cases result <;> rfl

theorem join_assoc (a b c : Except Error (List Cell)) : join (join a b) c = join a (join b c) := by
  cases a with
  | error e => rfl
  | ok xs =>
    cases b with
    | error e => rfl
    | ok ys =>
      cases c with
      | error e => rfl
      | ok zs => exact congrArg Except.ok (List.append_assoc xs ys zs)

variable {φ : Type} [CellFilter φ]

omit [CellFilter φ] in
theorem keep_result (c : Cell) (r : Except Error (List Cell) × φ) :
    (keep c r).1 = join (.ok [c]) r.1 := by
  obtain ⟨result, f⟩ := r
  cases result <;> rfl

/-- What a sweep does at a cell. It fails, or it keeps the cell or not and goes on. Two filters that
answer the cell alike make it do the same, whatever cells come behind. -/
theorem run_cons_alike (s : Sweep) (k : Cursor) {f g : φ} {c : Cell}
    (h : (CellFilter.step f c).1 = (CellFilter.step g c).1) :
    (∃ e, ∀ cs, (s.run k f (c :: cs)).1 = .error e ∧ (s.run k g (c :: cs)).1 = .error e) ∨
    ∃ k' f' g' kept, k'.column = some c.column ∧
      (f' = f ∧ g' = g ∨
        c.isTombstone = false ∧ f' = (CellFilter.step f c).2 ∧ g' = (CellFilter.step g c).2) ∧
      ∀ cs, (s.run k f (c :: cs)).1 = join (.ok kept) (s.run k' f' cs).1 ∧
        (s.run k g (c :: cs)).1 = join (.ok kept) (s.run k' g' cs).1 := by
  have hk := k.enter_column c
  by_cases htomb : c.isTombstone = true
  · refine .inr ?_
    by_cases happ : s.appliesTombstones = true
    · refine ⟨(k.enter c).mask c.timestamp, f, g, [], hk, .inl ⟨rfl, rfl⟩, fun cs => ?_⟩
      simp [run, htomb, happ]
    · refine ⟨k.enter c, f, g, [c], hk, .inl ⟨rfl, rfl⟩, fun cs => ?_⟩
      simp [run, htomb, happ, keep_result]
  · have hversion : c.isTombstone = false := Bool.eq_false_iff.2 htomb
    by_cases hadm : s.admits (k.enter c) c = true
    · obtain ⟨answer, f', hf⟩ : ∃ answer f', CellFilter.step f c = (answer, f') := ⟨_, _, rfl⟩
      obtain ⟨answer', g', hg⟩ : ∃ answer g', CellFilter.step g c = (answer, g') := ⟨_, _, rfl⟩
      obtain rfl : answer = answer' := by rwa [hf, hg] at h
      have hnext : c.isTombstone = false ∧
          f' = (CellFilter.step f c).2 ∧ g' = (CellFilter.step g c).2 :=
        ⟨hversion, by rw [hf], by rw [hg]⟩
      cases answer with
      | error e => exact .inl ⟨e, fun cs => by simp [run, hversion, hadm, hf, hg]⟩
      | ok d =>
        refine .inr ?_
        cases d with
        | accept =>
          refine ⟨(k.enter c).take, f', g', [c], hk, .inr hnext, fun cs => ?_⟩
          simp [run, hversion, hadm, hf, hg, keep_result]
        | skip =>
          refine ⟨k.enter c, f', g', [], hk, .inr hnext, fun cs => ?_⟩
          simp [run, hversion, hadm, hf, hg]
        | skipColumn =>
          refine ⟨(k.enter c).skipColumn, f', g', [], hk, .inr hnext, fun cs => ?_⟩
          simp [run, hversion, hadm, hf, hg]
    · refine .inr ⟨k.enter c, f, g, [], hk, .inl ⟨rfl, rfl⟩, fun cs => ?_⟩
      simp [run, hversion, hadm]

/-- With a column that the cursor is not in, a sweep starts afresh. -/
theorem run_afresh (s : Sweep) {k : Cursor} (f : φ) {cells : List Cell}
    (h : ∀ c ∈ cells, k.column ≠ some c.column) : s.run k f cells = s.run {} f cells := by
  cases cells with
  | nil => rfl
  | cons c cs =>
    have henter : k.enter c = ({} : Cursor).enter c := by
      rw [Cursor.enter, if_neg (h c List.mem_cons_self)]
      rfl
    rw [run, run, henter]

variable {s : Sweep} {k : Cursor} {f g : Option Filter} {xs ys cells : List Cell}

/-- Filters that know the same of the cells to come are of the same use to a sweep. -/
theorem run_alike (hord : Run.Ordered cells) (h : ∀ c ∈ cells, Filter.AgreeFrom c.column f g) :
    (s.run k f cells).1 = (s.run k g cells).1 := by
  induction cells generalizing k f g with
  | nil => rfl
  | cons c cs ih =>
    obtain ⟨hc, hcs⟩ := List.pairwise_cons.1 hord
    obtain ⟨hanswer, hstate⟩ := (h c List.mem_cons_self).step
    rcases s.run_cons_alike k hanswer with ⟨e, herror⟩ | ⟨k', f', g', kept, -, hnext, hrun⟩
    · rw [(herror cs).1, (herror cs).2]
    · have hrest : ∀ d ∈ cs, Filter.AgreeFrom d.column f' g' := by
        intro d hd
        rcases hnext with ⟨rfl, rfl⟩ | ⟨-, rfl, rfl⟩
        · exact h d (List.mem_cons_of_mem c hd)
        · apply hstate.later
          rcases Cell.column_le_of_key_lt (hc d hd) with hlt | heq
          · simp [hlt]
          · simp [heq]
      rw [(hrun cs).1, (hrun cs).2, ih hcs hrest]

/-- A sweep can be cut between two columns, and what comes behind is swept as if nothing had come
before it. -/
theorem run_append (hord : Run.Ordered xs) (hys : Run.Ordered ys)
    (hcut : ∀ c ∈ xs, ∀ d ∈ ys, compare c.column d.column = .lt)
    (hready : ∀ c ∈ xs, ∀ h ∈ f, h.Ready c) (hk : ∀ d ∈ ys, k.column ≠ some d.column)
    (hfg : ∀ d ∈ ys, Filter.AgreeFrom d.column f g) :
    (s.run k f (xs ++ ys)).1 = join (s.run k f xs).1 (s.run {} g ys).1 := by
  induction xs generalizing k f with
  | nil =>
    change (s.run k f ys).1 = join (.ok []) _
    rw [nil_join, run_afresh s f hk, run_alike hys hfg]
  | cons c cs ih =>
    obtain ⟨hc, hcs⟩ := List.pairwise_cons.1 hord
    obtain ⟨hcys, hcut⟩ := List.forall_mem_cons.1 hcut
    obtain ⟨hcready, hready⟩ := List.forall_mem_cons.1 hready
    rcases s.run_cons_alike (f := f) (g := f) k rfl with
      ⟨e, herror⟩ | ⟨k', f', g', kept, hk', hnext, hrun⟩
    · rw [List.cons_append, (herror _).1, (herror _).1]
      rfl
    · have hk'' : ∀ d ∈ ys, k'.column ≠ some d.column := by
        intro d hd heq
        have hlt := hcys d hd
        rw [hk', Option.some.injEq] at heq
        simp [heq] at hlt
      rw [List.cons_append, (hrun _).1, (hrun _).1, join_assoc]
      congr 1
      rcases hnext with ⟨rfl, -⟩ | ⟨hversion, rfl, -⟩
      · exact ih hcs hcut hready hk'' hfg
      · refine ih hcs hcut (fun d hd => ?_) hk'' fun d hd => ?_
        · exact Filter.ready_step hcready (Cell.storeOrder_of_key_lt (hc d hd) hversion)
        · exact (Filter.agreeFrom_step hcready (hcys d hd)).trans (hfg d hd)

end Sweep

/-! ## Cutting a read -/

/-- Nothing has been put yet to the filter of a plan, if that is so of the caller's. -/
theorem Plan.filter_fresh {r : Read} (hf : ∀ f ∈ r.filter, f.Fresh) {p : Plan}
    (hp : p = r.plan ∨ ∃ v, p = r.planFor v) : ∀ f ∈ p.filter, f.Fresh := by
  rcases hp with rfl | ⟨v, rfl⟩
  · exact hf
  · rintro _ ⟨⟩
    exact .combine (.visibility v .userScan) hf

/-- A plan can be cut at a row. -/
theorem Plan.run_cut {p : Plan} (hf : ∀ f ∈ p.filter, f.Fresh) {cells : List Cell}
    (hcells : Run.Ordered cells) {a b : Bytes} {stop : Option Bytes}
    (hab : (compare a b).isLE = true) (hstop : ∀ c ∈ stop, (compare b c).isLE = true) :
    ({ p with rows := .between a stop }.run cells).1 =
      Sweep.join ({ p with rows := .between a (some b) }.run cells).1
        ({ p with rows := .between b stop }.run cells).1 := by
  change (p.sweep.run {} p.filter (cells.filter (Read.covers (.between a stop) p.families))).1 = _
  rw [hcells.filter_covers_cut hab hstop]
  apply Sweep.run_append (hcells.sublist List.filter_sublist) (hcells.sublist List.filter_sublist)
  · intro c hc d hd
    exact Read.column_lt_of_covers_cut (List.mem_filter.1 hc).2 (List.mem_filter.1 hd).2
  · exact fun c _ f hmem => (hf f hmem).ready c
  · simp
  · exact fun _ _ => rfl

namespace Host

variable {σ : Type} {h : Host σ} {r : Read}

/-- The processor does not look at the rows of a read. -/
theorem planned_rows (h : Host σ) (r : Read) (rows : Rows) :
    h.planned { r with rows } = (h.planned r).map fun p => { p with rows } := by
  unfold planned ask Processor.planRead
  split_ifs
  · rcases h.processor.refuses_or_serves with hrefuses | ⟨ctx, hserves⟩ | hstopped
    · simp only [Processor.serve_of_refuses hrefuses]
      rfl
    · simp only [(Processor.serve_of_serves hserves _ _).1]
      cases r.attributes.transaction? h.processor.codec with
      | error e => rfl
      | ok t => cases t <;> rfl
    · simp only [Processor.serve_of_stopped hstopped]
      rfl
  · rfl

theorem read_rows_eq {s : Store} (hs : h.store = some s) (r : Read) (rows : Rows) :
    (h.read { r with rows }).result = match h.planned r with
      | .error e => .error e
      | .ok p => ({ p with rows }.run s.contents).1 := by
  rw [read_eq_planned hs, planned_rows]
  cases h.planned r <;> rfl

/-- A read leaves nothing behind that the next one could notice. -/
theorem read_again (h : Host σ) (r r' : Read) :
    ((h.read r).state.read r').result = (h.read r').result :=
  (read_congr (h.read_rested r) r').result

/-- Reads can be cut into rows. Whatever is read, for a transaction or not, with a processor that runs
or not, and without a filter of the caller or with any that is put together from predicates and the
like: a scan gives what a scan up to a row between and then one from that row on give, or it fails as
they do. And a single row is read like the rows from it up to the next that there could be. -/
theorem read_by_rows (h : Host σ) (hf : ∀ f ∈ r.filter, f.Fresh) :
    (∀ a b stop, (compare a b).isLE = true → (∀ c ∈ stop, (compare b c).isLE = true) →
      (h.read { r with rows := .between a stop }).result =
        Sweep.join (h.read { r with rows := .between a (some b) }).result
          ((h.read { r with rows := .between a (some b) }).state.read
            { r with rows := .between b stop }).result) ∧
    ∀ row, (h.read { r with rows := .one row }).result =
      (h.read { r with rows := .between row (some (row ++ [0])) }).result := by
  constructor
  · intro a b stop hab hstop
    rw [read_again]
    cases hs : h.store with
    | none =>
      simp only [read, readWith, hs]
      rfl
    | some s =>
      rw [read_rows_eq hs, read_rows_eq hs, read_rows_eq hs]
      cases hplan : h.planned r with
      | error e => rfl
      | ok p =>
        have hfresh := Plan.filter_fresh hf (planned_ok hplan)
        exact Plan.run_cut hfresh (Run.ordered_merge s.sources) hab hstop
  · intro row
    cases hs : h.store with
    | none => simp only [read, readWith, hs]
    | some s =>
      have hcovers (families : List Bytes) : Read.covers (.one row) families =
          Read.covers (.between row (some (row ++ [0]))) families := by
        funext c
        rw [Read.covers, Read.covers, Rows.one_contains]
      rw [read_rows_eq hs, read_rows_eq hs]
      cases h.planned r with
      | error e => rfl
      | ok p =>
        change (p.sweep.run {} p.filter (s.contents.filter (Read.covers _ p.families))).1 = _
        rw [hcovers]
        rfl

/-- A region with versions in a row, in the row right behind it and in a later one. -/
def rowed : Host SnapshotCache :=
  (blank .messagePack).run
    [.put { row := [1], cells := [⟨⟨[1], [2], [3]⟩, 10, [7], []⟩, ⟨⟨[1], [2], [3]⟩, 9, [7], []⟩] },
      .put { row := [1, 0], cells := [⟨⟨[1, 0], [2], [3]⟩, 9, [7], []⟩] },
      .put { row := [2], cells := [⟨⟨[2], [2], [3]⟩, 11, [7], []⟩] }]

example : (rowed.read { Read.sevens with rows := .between [1] none }).result =
    .ok [⟨⟨[1], [2], [3]⟩, 10, [7], []⟩, ⟨⟨[1, 0], [2], [3]⟩, 9, [7], []⟩,
      ⟨⟨[2], [2], [3]⟩, 11, [7], []⟩] := rfl

theorem read_by_rows_rowed : (∀ f ∈ Read.sevens.filter, f.Fresh) ∧
    (compare ([1] : Bytes) [1, 0]).isLE = true ∧
      (rowed.read { Read.sevens with rows := .between [1] none }).result =
        Sweep.join (rowed.read { Read.sevens with rows := .between [1] (some [1, 0]) }).result
          ((rowed.read { Read.sevens with rows := .between [1] (some [1, 0]) }).state.read
            { Read.sevens with rows := .between [1, 0] none }).result ∧
      (rowed.read { Read.sevens with rows := .one [1] }).result =
        (rowed.read { Read.sevens with rows := .between [1] (some [1, 0]) }).result := by
  have hf : ∀ f ∈ Read.sevens.filter, f.Fresh := by
    rintro _ ⟨⟩
    exact .predicate _
  have hle : (compare ([1] : Bytes) [1, 0]).isLE = true := rfl
  obtain ⟨hcut, hone⟩ := read_by_rows rowed hf
  exact ⟨hf, hle, hcut [1] [1, 0] none hle (by simp), hone [1]⟩

end Host

end CellStore
