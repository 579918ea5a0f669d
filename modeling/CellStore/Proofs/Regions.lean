import CellStore.Host
import CellStore.Proofs.Sweeping

/-! # Reachable regions

A region opens with an empty store and goes on by the operations of its host. Its
memstore and its files stay runs whatever happens, because an operation leaves the
store as it is, writes to it, flushes it or compacts it. A processor that was started
and not stopped serves every request with the context of its start.
-/
namespace CellStore

namespace Store

/-- The memstore and every file are runs. -/
structure WellFormed (s : Store) : Prop where
  memstore : Run.Ordered s.memstore
  files : ∀ file ∈ s.files, Run.Ordered file

/-- Where the cells are, the newest source first. -/
def sources (s : Store) : List (List Cell) := s.memstore :: s.files.reverse

theorem WellFormed.sources {s : Store} (h : s.WellFormed) : ∀ r ∈ s.sources, Run.Ordered r := by
  simpa [Store.sources] using ⟨h.memstore, h.files⟩

theorem WellFormed.write {s : Store} (h : s.WellFormed) (cells : List Cell) :
    (s.write cells).WellFormed := by
  refine ⟨?_, h.files⟩
  have hfold (m : List Cell) (hm : Run.Ordered m) :
      Run.Ordered (cells.foldl (fun m c => Run.insert c m) m) := by
    induction cells generalizing m with
    | nil => exact hm
    | cons c cs ih => exact ih _ (Run.ordered_insert c hm)
  exact hfold s.memstore h.memstore

theorem ordered_addFile {file : List Cell} {files : List (List Cell)} (hfile : Run.Ordered file)
    (hfiles : ∀ f ∈ files, Run.Ordered f) : ∀ f ∈ addFile file files, Run.Ordered f := by
  intro f hf
  unfold addFile at hf
  split_ifs at hf
  · exact hfiles f hf
  · rcases List.mem_append.1 hf with hf | hf
    · exact hfiles f hf
    · exact List.mem_singleton.1 hf ▸ hfile

theorem mem_addFile {file : List Cell} {files : List (List Cell)} {c : Cell} :
    c ∈ (addFile file files).flatten ↔ c ∈ file ∨ c ∈ files.flatten := by
  unfold addFile
  split_ifs with hempty
  · simp [List.isEmpty_iff.1 hempty]
  · rw [List.flatten_concat, List.mem_append, or_comm]

theorem mem_sources_iff {s : Store} {c : Cell} :
    c ∈ s.sources.flatten ↔ c ∈ s.memstore ∨ c ∈ s.files.flatten := by
  simp [sources]

theorem ordered_condense {kind : Upkeep} {scan : Option StoreScan} {cells file : List Cell}
    (h : (condense kind scan cells).1 = .ok file) (hcells : Run.Ordered cells) : Run.Ordered file :=
  hcells.sublist (Sweep.run_sublist h)

/-- The cells that a flush or compaction goes through. -/
def part (s : Store) : Upkeep → List Cell
  | .flush => s.memstore
  | .compact _ => s.fileContents

/-- Whether there is nothing to flush or compact. -/
def isIdle (s : Store) : Upkeep → Bool
  | .flush => s.memstore.isEmpty
  | .compact _ => s.files.isEmpty

def tend (s : Store) (region : String) (scan : Option StoreScan) : Upkeep → Outcome Store Unit
  | .flush => s.flush region scan
  | .compact kind => s.compact region kind scan

/-- The store with a new file in place of what was flushed or compacted. -/
def replace (s : Store) (file : List Cell) : Upkeep → Store
  | .flush => ⟨[], addFile file s.files⟩
  | .compact _ => { s with files := addFile file [] }

theorem mem_sources_of_mem_part {s : Store} {u : Upkeep} {c : Cell} (h : c ∈ s.part u) :
    c ∈ s.sources.flatten := by
  cases u with
  | flush => exact List.mem_append_left _ h
  | compact kind => exact List.mem_append_right _ (Run.mem_of_mem_merge h)

theorem WellFormed.part {s : Store} (h : s.WellFormed) (u : Upkeep) : Run.Ordered (s.part u) := by
  cases u with
  | flush => exact h.memstore
  | compact kind => exact Run.ordered_merge s.files.reverse

theorem WellFormed.replace {s : Store} (h : s.WellFormed) {file : List Cell}
    (hfile : Run.Ordered file) (u : Upkeep) : (s.replace file u).WellFormed := by
  cases u with
  | flush => exact ⟨.nil, ordered_addFile hfile h.files⟩
  | compact kind => exact ⟨h.memstore, ordered_addFile hfile (by simp)⟩

/-- Without anything to do, the store is what an empty file makes of it. -/
theorem part_of_isIdle {s : Store} {u : Upkeep} (h : s.isIdle u = true) :
    s.part u = [] ∧ s.replace [] u = s := by
  cases u with
  | flush =>
    have hm : s.memstore = [] := List.isEmpty_iff.1 h
    obtain ⟨memstore, files⟩ := s
    cases hm
    exact ⟨rfl, rfl⟩
  | compact kind =>
    have hf : s.files = [] := List.isEmpty_iff.1 h
    obtain ⟨memstore, files⟩ := s
    cases hf
    exact ⟨rfl, rfl⟩

theorem tend_ok {s : Store} {u : Upkeep} {scan scan' : Option StoreScan} {file : List Cell}
    (region : String) (h : condense u scan (s.part u) = (.ok file, scan')) :
    (s.tend region scan u).result = .ok () ∧ (s.tend region scan u).state = s.replace file u := by
  cases u with
  | flush =>
    have h' : condense .flush scan s.memstore = (.ok file, scan') := h
    simp [tend, Store.flush, h', Store.replace]
  | compact kind =>
    have h' : condense (.compact kind) scan s.fileContents = (.ok file, scan') := h
    simp [tend, Store.compact, h', Store.replace]

/-- A flush or compaction that fails changes nothing. -/
theorem tend_state (s : Store) (region : String) (scan : Option StoreScan) (u : Upkeep) :
    (s.tend region scan u).state = s ∨
      ∃ file, (condense u scan (s.part u)).1 = .ok file ∧
        (s.tend region scan u).state = s.replace file u := by
  cases hcond : condense u scan (s.part u) with
  | mk result scan' =>
    cases result with
    | ok file => exact .inr ⟨file, rfl, (tend_ok region hcond).2⟩
    | error e =>
      refine .inl ?_
      cases u with
      | flush =>
        have h' : condense .flush scan s.memstore = (.error e, scan') := hcond
        simp [tend, Store.flush, h']
      | compact kind =>
        have h' : condense (.compact kind) scan s.fileContents = (.error e, scan') := hcond
        simp [tend, Store.compact, h']

/-- How a store may change in one operation. -/
inductive Change (s : Store) : Store → Prop
  | keep : Change s s
  | write (cells : List Cell) : Change s (s.write cells)
  | tend (region : String) (scan : Option StoreScan) (u : Upkeep) :
    Change s (s.tend region scan u).state

theorem Change.wellFormed {s s' : Store} (hc : s.Change s') (h : s.WellFormed) : s'.WellFormed := by
  cases hc with
  | keep => exact h
  | write cells => exact h.write cells
  | tend region scan u =>
    rcases s.tend_state region scan u with hstate | ⟨file, hfile, hstate⟩
    · rwa [hstate]
    · rw [hstate]
      exact h.replace (ordered_condense hfile (h.part u)) u

end Store

namespace Processor

variable {σ α : Type} {p : Processor σ} {ctx : Context σ}

/-- Started with this context and not stopped since. -/
structure Serves (p : Processor σ) (ctx : Context σ) : Prop where
  stage : p.stage = .started ∨ p.stage = .active
  context : p.context = some ctx

/-- A processor that serves goes on serving once a request has come. -/
theorem Serves.activated (h : p.Serves ctx) : { p with stage := .active }.Serves ctx :=
  ⟨.inr rfl, h.context⟩

/-- A processor that serves does the work of a request in the context of its start. -/
theorem serve_of_serves (h : p.Serves ctx) (pass : α)
    (work : Context σ → Except Error α × List Event) :
    (p.serve pass work).result = (work ctx).1 ∧
      (p.serve pass work).state = { p with stage := .active } := by
  obtain ⟨settings, codec, stage, context⟩ := p
  obtain ⟨hstage, hcontext⟩ := h
  cases hcontext
  rcases hstage with hstage | hstage <;> cases hstage <;> exact ⟨rfl, rfl⟩

/-- A processor refuses requests, serves them or lets them pass. -/
theorem refuses_or_serves (p : Processor σ) :
    p.Refuses ∨ (∃ ctx, p.Serves ctx) ∨ p.stage = .stopped := by
  cases hstage : p.stage with
  | created => exact .inl (.inl hstage)
  | stopped => exact .inr (.inr rfl)
  | started =>
    cases hcontext : p.context with
    | none => exact .inl (.inr ⟨by simp [hstage], hcontext⟩)
    | some ctx => exact .inr (.inl ⟨ctx, .inl hstage, hcontext⟩)
  | active =>
    cases hcontext : p.context with
    | none => exact .inl (.inr ⟨by simp [hstage], hcontext⟩)
    | some ctx => exact .inr (.inl ⟨ctx, .inr hstage, hcontext⟩)

theorem serve_of_refuses (h : p.Refuses) (pass : α)
    (work : Context σ → Except Error α × List Event) :
    p.serve pass work = ⟨.error .notStarted, p, []⟩ := by
  obtain ⟨settings, codec, stage, context⟩ := p
  rcases h with hstage | ⟨hstage, hcontext⟩
  · cases hstage
    rfl
  · cases hcontext
    cases stage with
    | created => rfl
    | started => rfl
    | active => rfl
    | stopped => exact absurd rfl hstage

theorem serve_of_stopped (h : p.stage = .stopped) (pass : α)
    (work : Context σ → Except Error α × List Event) : p.serve pass work = ⟨.ok pass, p, []⟩ := by
  simp only [serve, h]

/-- A read that carries a transaction is refused if it does not decode, and otherwise
planned for the transaction. -/
theorem planRead_of_serves (h : p.Serves ctx) (now : TxId) {r : Read} {bytes : Bytes}
    (hattr : r.attributes.get? Attributes.transactionKey = some bytes) :
    (p.planRead now r).result = (p.codec.decode bytes).map fun t => r.planFor ⟨t, ctx.ttl, now⟩ := by
  unfold planRead
  rw [(serve_of_serves h _ _).1]
  simp only [Attributes.transaction?, hattr]
  cases p.codec.decode bytes <;> rfl

/-- A flush or compaction is guarded by the latest snapshot; without one it goes unguarded or is
refused. -/
theorem openScan_of_serves (h : p.Serves ctx) (now : TxId) (latest : σ → Option Snapshot)
    (u : Upkeep) :
    (p.openScan now latest u).result =
      if latest ctx.source = none ∧ p.settings.coldCachePolicy = .reject then
        .error .snapshotUnavailable
      else .ok ((latest ctx.source).map fun s => ⟨u, .ofSnapshot s ctx.ttl u.purpose now⟩) := by
  unfold openScan
  rw [(serve_of_serves h _ _).1]
  cases latest ctx.source with
  | some s => simp
  | none => cases p.settings.coldCachePolicy <;> simp

end Processor

namespace Host

variable {σ : Type}

/-- A region before it opens: an empty store, and a processor not started yet. -/
structure Fresh (h : Host σ) : Prop where
  store : h.store = some {}
  unstarted : h.processor.Unstarted

/-- The regions that operations lead to. -/
inductive Reachable [SnapshotSource σ] : Host σ → Prop
  | opened {h : Host σ} : h.Fresh → Reachable h.opening.state
  | step {h : Host σ} (op : Operation) : Reachable h → Reachable (h.apply op).state

/-- The region's processor was started with this context and is not stopped. -/
structure Running (h : Host σ) (ctx : Context Unit) : Prop where
  observed : h.observed = true
  serves : h.processor.Serves ctx

/-- Asking the processor leaves all but the processor as it is. -/
theorem ask_state {α : Type} (h : Host σ) (pass : α)
    (hook : Processor Unit → Outcome (Processor Unit) α) :
    ∃ processor, (h.ask pass hook).state = { h with processor } := by
  unfold ask
  split_ifs
  · exact ⟨_, rfl⟩
  · exact ⟨h.processor, rfl⟩

theorem opening_store (h : Host σ) : h.opening.state.store = h.store := by
  unfold opening startProcessor
  split_ifs <;> rfl

variable {h : Host σ} {ctx : Context Unit} {s : Store}

theorem read_store (h : Host σ) (r : Read) : (h.read r).state.store = h.store := by
  unfold read readWith
  cases hs : h.store with
  | none => exact hs
  | some s =>
    obtain ⟨processor, hstate⟩ := h.ask_state r.plan (·.planRead h.now r)
    dsimp only
    split <;> simp [hstate, hs]

theorem put_open (hs : h.store = some s) (p : Put) :
    ∃ s', (h.put p).state.store = some s' ∧ s.Change s' := by
  obtain ⟨processor, hstate⟩ := h.ask_state p (·.preparePut p)
  simp only [put, onStore, hs, Outcome.andThen]
  split
  · exact ⟨s, by rw [hstate, hs], .keep⟩
  · exact ⟨_, rfl, .write _⟩

theorem ask_agrees {α : Type} {pass : α} {hook : Processor Unit → Outcome (Processor Unit) α}
    (hhook : (hook h.processor).state.Agrees) (hagrees : h.processor.Agrees) :
    (h.ask pass hook).state.processor.Agrees := by
  unfold ask
  split_ifs
  · exact hhook
  · exact hagrees

theorem Running.ask_result {α : Type} (hrun : h.Running ctx) (pass : α)
    (hook : Processor Unit → Outcome (Processor Unit) α) :
    (h.ask pass hook).result = (hook h.processor).result := by
  rw [ask, if_pos hrun.observed]

theorem Running.read_result (hrun : h.Running ctx) (hs : h.store = some s) {r : Read}
    {bytes : Bytes} (hattr : r.attributes.get? Attributes.transactionKey = some bytes) :
    (h.read r).result = match h.processor.codec.decode bytes with
      | .error e => .error e
      | .ok t => (s.read (r.planFor ⟨t, ctx.ttl, h.now⟩)).1 := by
  have hplan := hrun.ask_result r.plan (·.planRead h.now r)
  rw [Processor.planRead_of_serves hrun.serves h.now hattr] at hplan
  simp only [read, readWith, hs]
  cases hdec : h.processor.codec.decode bytes <;> simp [hplan, hdec, Except.map]

variable [SnapshotSource σ]

theorem openScan_store (h : Host σ) (u : Upkeep) : (h.openScan u).state.store = h.store := by
  obtain ⟨processor, hstate⟩ := h.ask_state none (·.openScan h.now (fun _ => h.latest) u)
  rw [openScan, hstate]

/-- A flush or compaction is refused, or it goes unguarded or with the guard of a snapshot. -/
theorem openScan_cases (h : Host σ) (u : Upkeep) :
    (h.openScan u).result = .error .notStarted ∨
      (h.openScan u).result = .error .snapshotUnavailable ∨
        ∃ (guard : Option Snapshot) (ttl : TtlTable), (h.openScan u).result =
          .ok (guard.map fun s => ⟨u, .ofSnapshot s ttl u.purpose h.now⟩) := by
  have hunguarded : ∃ (guard : Option Snapshot) (ttl : TtlTable), (.ok none : Except Error _) =
      .ok (guard.map fun s => (⟨u, .ofSnapshot s ttl u.purpose h.now⟩ : StoreScan)) := ⟨none, {}, rfl⟩
  unfold openScan ask
  split_ifs
  · rcases h.processor.refuses_or_serves with hrefuses | ⟨ctx, hserves⟩ | hstopped
    · exact .inl (congrArg Outcome.result (Processor.serve_of_refuses hrefuses _ _))
    · rw [Processor.openScan_of_serves hserves]
      split_ifs
      · exact .inr (.inl rfl)
      · exact .inr (.inr ⟨_, ctx.ttl, rfl⟩)
    · simp only [Processor.openScan, Processor.serve_of_stopped hstopped]
      exact .inr (.inr hunguarded)
  · exact .inr (.inr hunguarded)

/-- Put the store in order. -/
def upkeep (h : Host σ) : Upkeep → Outcome (Host σ) Unit
  | .flush => h.flush
  | .compact kind => h.compact kind

/-- A flush and a compaction go the same way. -/
theorem upkeep_eq (h : Host σ) (u : Upkeep) :
    h.upkeep u = h.onStore fun s =>
      if s.isIdle u then ⟨.ok (), h, []⟩
      else (h.openScan u).andThen fun scan h => h.settle (s.tend h.region scan u) := by
  cases u <;> rfl

theorem upkeep_open (hs : h.store = some s) (u : Upkeep) :
    ∃ s', (h.upkeep u).state.store = some s' ∧ s.Change s' := by
  rw [upkeep_eq, onStore, hs]
  dsimp only
  split_ifs
  · exact ⟨s, hs, .keep⟩
  · unfold Outcome.andThen
    split
    · exact ⟨s, (h.openScan_store u).trans hs, .keep⟩
    · exact ⟨_, rfl, .tend _ _ u⟩

/-- Whatever is done to an open region but closing it leaves it open. -/
theorem apply_open (hs : h.store = some s) {op : Operation} (hop : op ≠ .close) :
    ∃ s', (h.apply op).state.store = some s' ∧ s.Change s' := by
  cases op with
  | put p => exact put_open hs p
  | delete column timestamp =>
    simp only [apply, replying, delete, onStore, hs]
    exact ⟨_, rfl, .write _⟩
  | read r => exact ⟨s, (h.read_store r).trans hs, .keep⟩
  | flush => exact upkeep_open hs .flush
  | compact kind => exact upkeep_open hs (.compact kind)
  | publish snapshot => exact ⟨s, hs, .keep⟩
  | setClock millis => exact ⟨s, hs, .keep⟩
  | stop => exact ⟨s, hs, .keep⟩
  | reopen => exact ⟨s, hs, .keep⟩
  | close => exact absurd rfl hop

/-- Closing an open region stops the processor that observes it. -/
theorem apply_close (hs : h.store = some s) :
    (h.apply .close).state.store = none ∧
      ((h.apply .close).state.observed = true →
        (h.apply .close).state.processor.stage = .stopped) := by
  simp only [apply, replying, close, hs]
  split_ifs with hobserved
  · exact ⟨rfl, fun _ => rfl⟩
  · exact ⟨rfl, fun hobs => absurd hobs hobserved⟩

/-- A closed region stays closed, and its processor is left as it is, stopped or asked to start. -/
theorem apply_closed (hs : h.store = none) (op : Operation) :
    (h.apply op).state.store = none ∧ (h.apply op).state.observed = h.observed ∧
      ((h.apply op).state.processor = h.processor ∨
        (h.apply op).state.processor = h.processor.stop.1 ∨
          (h.apply op).state.processor = (h.processor.start h.environment).state) := by
  cases op with
  | put p => simp [apply, replying, put, onStore, hs]
  | delete column timestamp => simp [apply, replying, delete, onStore, hs]
  | read r => simp [apply, replying, read, readWith, hs]
  | flush => simp [apply, replying, flush, onStore, hs]
  | compact kind => simp [apply, replying, compact, onStore, hs]
  | publish snapshot => exact ⟨hs, rfl, .inl rfl⟩
  | setClock millis => exact ⟨hs, rfl, .inl rfl⟩
  | stop => exact ⟨hs, rfl, .inr (.inl rfl)⟩
  | reopen => exact ⟨hs, rfl, .inr (.inr rfl)⟩
  | close => simp [apply, replying, close, hs]

/-- What holds of an empty store and survives every change holds of the store of a reachable
region. -/
theorem Reachable.store_invariant {P : Store → Prop} (hempty : P {})
    (hchange : ∀ s s' : Store, s.Change s' → P s → P s') (hr : h.Reachable) (hs : h.store = some s) :
    P s := by
  induction hr generalizing s with
  | opened hfresh =>
    rw [opening_store, hfresh.store] at hs
    cases hs
    exact hempty
  | @step h op _ ih =>
    cases hs₀ : h.store with
    | none =>
      rw [(apply_closed hs₀ op).1] at hs
      cases hs
    | some s₀ =>
      by_cases hop : op = .close
      · rw [hop, (apply_close hs₀).1] at hs
        cases hs
      · obtain ⟨s', hs', hstep⟩ := apply_open hs₀ hop
        rw [hs'] at hs
        cases hs
        exact hchange s₀ _ hstep (ih hs₀)

/-- The store of a reachable region is well-formed. -/
theorem Reachable.wellFormed (hr : h.Reachable) (hs : h.store = some s) : s.WellFormed :=
  hr.store_invariant ⟨.nil, by simp⟩ (fun _ _ hchange => hchange.wellFormed) hs

/-- Once the region is closed, a processor that observed it is stopped for good. -/
theorem Reachable.stopped_of_closed (hr : h.Reachable) (hs : h.store = none)
    (hobs : h.observed = true) : h.processor.stage = .stopped := by
  induction hr with
  | opened hfresh =>
    rw [opening_store, hfresh.store] at hs
    cases hs
  | @step h op _ ih =>
    cases hs₀ : h.store with
    | none =>
      obtain ⟨-, hsame, hprocessor⟩ := apply_closed hs₀ op
      have hstopped := ih hs₀ (hsame.symm.trans hobs)
      rcases hprocessor with hp | hp | hp
      · rw [hp, hstopped]
      · rw [hp]
        rfl
      · rw [hp]
        simp only [Processor.start, hstopped]
    | some s =>
      by_cases hop : op = .close
      · subst hop
        exact (apply_close hs₀).2 hobs
      · obtain ⟨s', hs', -⟩ := apply_open hs₀ hop
        rw [hs'] at hs
        cases hs

theorem upkeep_agrees (hagrees : h.processor.Agrees) (u : Upkeep) :
    (h.upkeep u).state.processor.Agrees := by
  rw [upkeep_eq, onStore]
  split
  · split_ifs
    · exact hagrees
    · have hasked : (h.openScan u).state.processor.Agrees := ask_agrees (hagrees.serve _ _) hagrees
      unfold Outcome.andThen
      split <;> exact hasked
  · exact hagrees

/-- No operation brings stage and context of the processor out of agreement. -/
theorem apply_agrees (hagrees : h.processor.Agrees) (op : Operation) :
    (h.apply op).state.processor.Agrees := by
  cases op with
  | put p =>
    have hasked : (h.ask p (·.preparePut p)).state.processor.Agrees :=
      ask_agrees (hagrees.serve _ _) hagrees
    simp only [apply, replying, put, onStore]
    split
    · unfold Outcome.andThen
      split <;> exact hasked
    · exact hagrees
  | delete column timestamp =>
    simp only [apply, replying, delete, onStore]
    split <;> exact hagrees
  | read r =>
    have hasked : (h.ask r.plan (·.planRead h.now r)).state.processor.Agrees :=
      ask_agrees (hagrees.serve _ _) hagrees
    simp only [apply, replying, read, readWith]
    split
    · exact hagrees
    · split <;> exact hasked
  | flush => exact upkeep_agrees hagrees .flush
  | compact kind => exact upkeep_agrees hagrees (.compact kind)
  | publish snapshot => exact hagrees
  | setClock millis => exact hagrees
  | stop => exact h.processor.stop_agrees
  | reopen => exact hagrees.start h.environment
  | close =>
    simp only [apply, replying, close]
    split
    · exact hagrees
    · split_ifs
      · exact h.processor.stop_agrees
      · exact hagrees

/-- In a reachable region stage and context of the processor agree. -/
theorem Reachable.agrees (hr : h.Reachable) : h.processor.Agrees := by
  induction hr with
  | @opened h hfresh =>
    unfold opening
    split_ifs
    · exact hfresh.unstarted.agrees.start h.environment
    · exact hfresh.unstarted.agrees
  | step op _ ih => exact apply_agrees ih op

theorem Reachable.run (hr : h.Reachable) (ops : List Operation) : (h.run ops).Reachable := by
  induction ops generalizing h with
  | nil => exact hr
  | cons op ops ih => exact ih (hr.step op)

/-- A region without families, just opened with the default settings. -/
def blank (codec : Codec) : Host SnapshotCache :=
  (opening { table := ⟨"t", []⟩, processor := { codec }, source := {} }).state

theorem blank_reachable (codec : Codec) : (blank codec).Reachable := .opened ⟨rfl, rfl, rfl⟩

/-! ## A running processor -/

/-- The region once its processor has served a request. -/
def activated (h : Host σ) : Host σ := { h with processor := { h.processor with stage := .active } }

/-- A running region is open. -/
theorem Reachable.open_of_running (hr : h.Reachable) (hrun : h.Running ctx) :
    ∃ s, h.store = some s := by
  cases hs : h.store with
  | some s => exact ⟨s, rfl⟩
  | none =>
    have hstopped := hr.stopped_of_closed hs hrun.observed
    rcases hrun.serves.stage with hstarted | hactive
    · simp [hstopped] at hstarted
    · simp [hstopped] at hactive

/-- What a flush or compaction is guarded by. -/
theorem Running.openScan_result (hrun : h.Running ctx) (u : Upkeep) :
    (h.openScan u).result =
      if h.latest = none ∧ h.processor.settings.coldCachePolicy = .reject then
        .error .snapshotUnavailable
      else .ok (h.latest.map fun s => ⟨u, .ofSnapshot s ctx.ttl u.purpose h.now⟩) := by
  rw [openScan, hrun.ask_result]
  exact Processor.openScan_of_serves hrun.serves h.now _ u

theorem Running.openScan_state (hrun : h.Running ctx) (u : Upkeep) :
    (h.openScan u).state = h.activated := by
  rw [openScan, ask, if_pos hrun.observed, Host.activated]
  unfold Processor.openScan
  simp only [(Processor.serve_of_serves hrun.serves _ _).2]

end Host

end CellStore
