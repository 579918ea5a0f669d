import CellStore.Proofs.Regions

/-! # Operations that fail

An operation that fails may still have brought the processor its first request. Nothing that a host
answers or stores depends on whether such a request has come, and a failed operation does nothing
else. So a run goes as it would without the operations of it that fail.
-/
namespace CellStore

/-- The stage before the first request. -/
def Stage.rested : Stage → Stage
  | active => started
  | stage => stage

namespace Processor

variable {σ α : Type}

/-- The processor before its first request. -/
def rested (p : Processor σ) : Processor σ := { p with stage := p.stage.rested }

theorem rested_rested (p : Processor σ) : p.rested.rested = p.rested := by
  obtain ⟨settings, codec, stage, context⟩ := p
  cases stage <;> rfl

/-- A hook that answers as before the first request, and changes nothing but that one has come. -/
structure Steady (hook : Processor σ → Outcome (Processor σ) α) : Prop where
  result : ∀ p, (hook p.rested).result = (hook p).result
  state : ∀ p, (hook p).state.rested = p.rested

theorem serve_rested (p : Processor σ) (pass : α) (work : Context σ → Except Error α × List Event) :
    (p.rested.serve pass work).result = (p.serve pass work).result ∧
      (p.serve pass work).state.rested = p.rested := by
  obtain ⟨settings, codec, stage, context⟩ := p
  cases stage <;> cases context <;> exact ⟨rfl, rfl⟩

theorem planRead_steady (now : TxId) (r : Read) :
    Steady fun p : Processor σ => p.planRead now r :=
  ⟨fun p => (p.serve_rested _ _).1, fun p => (p.serve_rested _ _).2⟩

theorem preparePut_steady (put : Put) : Steady fun p : Processor σ => p.preparePut put :=
  ⟨fun p => (p.serve_rested _ _).1, fun p => (p.serve_rested _ _).2⟩

theorem openScan_steady (now : TxId) (latest : σ → Option Snapshot) (u : Upkeep) :
    Steady fun p : Processor σ => p.openScan now latest u :=
  ⟨fun p => (p.serve_rested _ _).1, fun p => (p.serve_rested _ _).2⟩

theorem start_rested (p : Processor σ) (env : Environment σ) :
    (p.rested.start env).result = (p.start env).result ∧
      (p.rested.start env).state.rested = (p.start env).state.rested := by
  obtain ⟨settings, codec, stage, context⟩ := p
  cases stage <;> cases context <;> exact ⟨rfl, rfl⟩

/-- A start that fails leaves the processor as it is. -/
theorem start_state_of_error {p : Processor σ} {env : Environment σ} {e : Error}
    (h : (p.start env).result = .error e) : (p.start env).state = p := by
  obtain ⟨settings, codec, stage, context⟩ := p
  cases stage with
  | created =>
    cases context with
    | none => cases h
    | some ctx => rfl
  | started => rfl
  | active => rfl
  | stopped => rfl

theorem stop_rested (p : Processor σ) : p.rested.stop.1 = p.stop.1 := by
  obtain ⟨settings, codec, stage, context⟩ := p
  cases stage <;> rfl

end Processor

/-- A flush or compaction that fails leaves the store as it is. -/
theorem Store.tend_state_of_error {s : Store} {region : String} {scan : Option StoreScan} {u : Upkeep}
    {e : Error} (h : (s.tend region scan u).result = .error e) :
    (s.tend region scan u).state = s := by
  rcases s.tend_state region scan u with hstate | ⟨file, hfile, -⟩
  · exact hstate
  · have hcond : condense u scan (s.part u) = (.ok file, (condense u scan (s.part u)).2) :=
      Prod.ext hfile rfl
    rw [(tend_ok region hcond).1] at h
    cases h

namespace Host

variable {σ α β : Type} {h h' : Host σ} {e : Error}

/-- The host before the first request to its processor. -/
def rested (h : Host σ) : Host σ := { h with processor := h.processor.rested }

theorem rested_rested (h : Host σ) : h.rested.rested = h.rested := by
  rw [rested, rested, Processor.rested_rested]

theorem store_eq_of_rested (hrested : h.rested = h'.rested) : h.store = h'.store := by
  have hstore : h.rested.store = h'.rested.store := congrArg store hrested
  exact hstore

/-- The same result, and hosts that differ only in whether a request has come. -/
structure Alike (o o' : Outcome (Host σ) α) : Prop where
  result : o.result = o'.result
  state : o.state.rested = o'.state.rested

namespace Alike

variable {o o' : Outcome (Host σ) α}

theorem symm (ho : Alike o o') : Alike o' o := ⟨ho.result.symm, ho.state.symm⟩

theorem trans {o'' : Outcome (Host σ) α} (ho : Alike o o') (ho' : Alike o' o'') : Alike o o'' :=
  ⟨ho.result.trans ho'.result, ho.state.trans ho'.state⟩

theorem replying {reply : α → Reply} (ho : Alike o o') :
    Alike (Host.replying reply o) (Host.replying reply o') :=
  ⟨congrArg (Except.map reply) ho.result, ho.state⟩

theorem andThen {next : α → Host σ → Outcome (Host σ) β} (ho : Alike o o')
    (hnext : ∀ a h h', h.rested = h'.rested → Alike (next a h) (next a h')) :
    Alike (o.andThen next) (o'.andThen next) := by
  have hresult := ho.result
  cases hr : o.result with
  | error e =>
    rw [hr] at hresult
    rw [Outcome.andThen_error hr, Outcome.andThen_error hresult.symm]
    exact ⟨rfl, ho.state⟩
  | ok a =>
    rw [hr] at hresult
    obtain ⟨hres, hst⟩ := Outcome.andThen_ok hr next
    obtain ⟨hres', hst'⟩ := Outcome.andThen_ok hresult.symm next
    have hgo := hnext a _ _ ho.state
    exact ⟨by rw [hres, hres', hgo.result], by rw [hst, hst', hgo.state]⟩

end Alike

theorem Alike.refl_rested (h : Host σ) (result : Except Error α) (events events' : List Event) :
    Alike ⟨result, h.rested, events⟩ ⟨result, h, events'⟩ :=
  ⟨rfl, h.rested_rested⟩

theorem Alike.onStore {work work' : Store → Outcome (Host σ) α} (h : Host σ)
    (hwork : ∀ s, Alike (work s) (work' s)) : Alike (h.rested.onStore work) (h.onStore work') := by
  have hstore : h.rested.store = h.store := rfl
  unfold Host.onStore
  rw [hstore]
  cases h.store with
  | none => exact .refl_rested h _ [] []
  | some s => exact hwork s

/-! ## What a request leaves behind -/

theorem ask_rested (h : Host σ) (pass : α) {hook : Processor Unit → Outcome (Processor Unit) α}
    (hhook : Processor.Steady hook) : (h.ask pass hook).state.rested = h.rested := by
  unfold ask
  split_ifs
  · simp only [rested, hhook.state]
  · rfl

theorem ask_alike (h : Host σ) (pass : α) {hook : Processor Unit → Outcome (Processor Unit) α}
    (hhook : Processor.Steady hook) : Alike (h.rested.ask pass hook) (h.ask pass hook) := by
  constructor
  · have hobserved : h.rested.observed = h.observed := rfl
    unfold ask
    rw [hobserved]
    split_ifs
    · exact hhook.result _
    · rfl
  · rw [ask_rested _ _ hhook, ask_rested _ _ hhook, rested_rested]

/-- Hosts that are alike stay so with the same outcome of work on the store. -/
theorem settle_alike (hrested : h.rested = h'.rested) (o : Outcome Store Unit) :
    Alike (h.settle o) (h'.settle o) :=
  ⟨rfl, congrArg (fun h : Host σ => { h with store := some o.state }) hrested⟩

/-! ## One operation -/

theorem put_alike (h : Host σ) (p : Put) : Alike (h.rested.put p) (h.put p) := by
  refine .onStore h fun s => ?_
  refine (h.ask_alike p (Processor.preparePut_steady p)).andThen fun q a b hab => ⟨rfl, ?_⟩
  exact congrArg (fun h : Host σ => { h with store := some (s.write q.cells) }) hab

/-- A read asks the processor and goes to the store with its plan. -/
theorem read_eq (h : Host σ) (r : Read) : h.read r = h.onStore fun s =>
    (h.ask r.plan (·.planRead h.now r)).andThen fun plan h => ⟨(s.read plan).1, h, []⟩ := by
  unfold read readWith onStore Outcome.andThen
  cases h.store with
  | none => rfl
  | some s =>
    dsimp only
    split <;> simp [*]

theorem read_alike (h : Host σ) (r : Read) : Alike (h.rested.read r) (h.read r) := by
  rw [read_eq, read_eq]
  refine .onStore h fun s => ?_
  exact (h.ask_alike r.plan (Processor.planRead_steady h.now r)).andThen fun _ _ _ hab => ⟨rfl, hab⟩

theorem upkeep_alike [SnapshotSource σ] (h : Host σ) (u : Upkeep) :
    Alike (h.rested.upkeep u) (h.upkeep u) := by
  rw [upkeep_eq, upkeep_eq]
  refine .onStore h fun s => ?_
  split_ifs
  · exact .refl_rested h _ [] []
  · have hscan := Processor.openScan_steady (σ := Unit) h.now (fun _ => h.latest) u
    refine (h.ask_alike none hscan).andThen fun scan a b hab => ?_
    have hregion : a.rested.region = b.rested.region := congrArg region hab
    change Alike (a.settle (s.tend a.rested.region scan u)) (b.settle (s.tend b.rested.region scan u))
    rw [hregion]
    exact settle_alike hab _

theorem stop_alike (h : Host σ) : Alike h.rested.stop h.stop :=
  ⟨rfl, congrArg (fun processor => rested { h with processor }) h.processor.stop_rested⟩

theorem close_alike (h : Host σ) : Alike h.rested.close h.close := by
  have hstore : h.rested.store = h.store := rfl
  have hobserved : h.rested.observed = h.observed := rfl
  unfold close
  rw [hstore, hobserved]
  cases h.store with
  | none => exact .refl_rested h _ [] []
  | some s =>
    dsimp only
    split_ifs
    · exact stop_alike { h with store := none }
    · exact .refl_rested { h with store := none } _ [] []

/-- Whether a request has come to the processor makes no difference to what an operation does. -/
theorem apply_alike [SnapshotSource σ] (h : Host σ) (op : Operation) :
    Alike (h.rested.apply op) (h.apply op) := by
  cases op with
  | put p => exact (h.put_alike p).replying
  | delete column timestamp =>
    exact (Alike.onStore h fun s =>
      .refl_rested { h with store := some (s.delete column timestamp) } _ [] []).replying
  | read r => exact (h.read_alike r).replying
  | flush => exact (h.upkeep_alike .flush).replying
  | compact kind => exact (h.upkeep_alike (.compact kind)).replying
  | publish s => exact .refl_rested { h with source := (SnapshotSource.publish h.source s).2.1 } _ _ _
  | setClock millis => exact .refl_rested { h with clock := millis } _ [] []
  | stop => exact h.stop_alike.replying
  | reopen =>
    obtain ⟨hresult, hstate⟩ := h.processor.start_rested h.environment
    refine Alike.replying ⟨hresult, ?_⟩
    exact congrArg (fun processor => { h with processor }) hstate
  | close => exact h.close_alike.replying

/-- An action to which it makes no difference whether a request has come does the same to hosts that
differ only in that. -/
theorem Alike.congr (act : Host σ → Outcome (Host σ) α) (hact : ∀ h, Alike (act h.rested) (act h))
    (hrested : h.rested = h'.rested) : Alike (act h) (act h') := by
  apply (hact h).symm.trans
  rw [hrested]
  exact hact h'

/-- Hosts that differ only in whether a request has come go on the same way. -/
theorem apply_congr [SnapshotSource σ] (hrested : h.rested = h'.rested) (op : Operation) :
    Alike (h.apply op) (h'.apply op) :=
  .congr (·.apply op) (fun h => h.apply_alike op) hrested

theorem upkeep_congr [SnapshotSource σ] (hrested : h.rested = h'.rested) (u : Upkeep) :
    Alike (h.upkeep u) (h'.upkeep u) :=
  .congr (·.upkeep u) (fun h => h.upkeep_alike u) hrested

theorem read_congr (hrested : h.rested = h'.rested) (r : Read) : Alike (h.read r) (h'.read r) :=
  .congr (·.read r) (fun h => h.read_alike r) hrested

/-- A read leaves all as it is, but that a request has come. -/
theorem read_rested (h : Host σ) (r : Read) : (h.read r).state.rested = h.rested := by
  have hask := h.ask_rested r.plan (Processor.planRead_steady h.now r)
  unfold read readWith
  cases h.store with
  | none => rfl
  | some s =>
    dsimp only
    split <;> exact hask

/-! ## One operation that fails -/

/-- Work that fails on a store leaves all as it is if it does so on an open region. -/
theorem onStore_rested {work : Store → Outcome (Host σ) α}
    (hwork : ∀ s, h.store = some s → (work s).result = .error e → (work s).state.rested = h.rested)
    (herr : (h.onStore work).result = .error e) : (h.onStore work).state.rested = h.rested := by
  unfold onStore at herr ⊢
  cases hs : h.store with
  | none => rfl
  | some s =>
    rw [hs] at herr
    exact hwork s hs herr

/-- So does a request that fails, in the processor or in what follows its answer. -/
theorem ask_andThen_rested {pass : α} {hook : Processor Unit → Outcome (Processor Unit) α}
    (hhook : Processor.Steady hook) {next : α → Host σ → Outcome (Host σ) β}
    (hnext : ∀ a h', h'.rested = h.rested → (next a h').result = .error e →
      (next a h').state.rested = h.rested)
    (herr : ((h.ask pass hook).andThen next).result = .error e) :
    ((h.ask pass hook).andThen next).state.rested = h.rested := by
  have hask := h.ask_rested pass hhook
  cases hr : (h.ask pass hook).result with
  | error e' =>
    rw [Outcome.andThen_error hr]
    exact hask
  | ok a =>
    rw [(Outcome.andThen_ok hr next).1] at herr
    rw [(Outcome.andThen_ok hr next).2]
    exact hnext a _ hask herr

theorem put_rested {p : Put} (herr : (h.put p).result = .error e) :
    (h.put p).state.rested = h.rested := by
  refine onStore_rested (fun s hs herr => ?_) herr
  refine ask_andThen_rested (Processor.preparePut_steady p) (fun q h' _ herr => ?_) herr
  cases herr

theorem upkeep_rested [SnapshotSource σ] {u : Upkeep} (herr : (h.upkeep u).result = .error e) :
    (h.upkeep u).state.rested = h.rested := by
  rw [upkeep_eq] at herr ⊢
  refine onStore_rested (fun s hs herr => ?_) herr
  split_ifs at herr ⊢
  have hscan := Processor.openScan_steady (σ := Unit) h.now (fun _ => h.latest) u
  refine ask_andThen_rested hscan (fun scan h' hrested herr => ?_) herr
  -- The work on the store has failed, so it gives back the store that the host still has.
  have hkept : (s.tend h'.region scan u).state = s := Store.tend_state_of_error herr
  have hs' : h'.store = some s := (store_eq_of_rested hrested).trans hs
  rw [settle, hkept, ← hs']
  exact hrested

theorem error_of_replying {o : Outcome (Host σ) α} {reply : α → Reply}
    (herr : (replying reply o).result = .error e) : o.result = .error e := by
  simp only [replying] at herr
  cases hr : o.result with
  | error e' =>
    rw [hr] at herr
    cases herr
    rfl
  | ok a =>
    rw [hr] at herr
    cases herr

/-- An operation that fails leaves all as it is, but that a request has come. -/
theorem apply_rested [SnapshotSource σ] {op : Operation} (herr : (h.apply op).result = .error e) :
    (h.apply op).state.rested = h.rested := by
  cases op with
  | put p => exact put_rested (error_of_replying herr)
  | delete column timestamp =>
    refine onStore_rested (fun s hs herr => ?_) (error_of_replying herr)
    cases herr
  | read r => exact h.read_rested r
  | flush => exact upkeep_rested (u := .flush) (error_of_replying herr)
  | compact kind => exact upkeep_rested (u := .compact kind) (error_of_replying herr)
  | publish s => cases herr
  | setClock millis => cases herr
  | stop => cases herr
  | reopen =>
    have hstate := Processor.start_state_of_error (error_of_replying herr)
    exact congrArg (fun processor => rested { h with processor }) hstate
  | close =>
    simp only [apply, replying, close] at herr
    split at herr
    · cases herr
    · split_ifs at herr <;> cases herr

/-! ## Runs -/

/-- An operation of a run, with what it gave and the store after it. -/
structure Step where
  operation : Operation
  result : Except Error Reply
  store : Option Store

def Step.succeeded (s : Step) : Bool := s.result.isOk

variable [SnapshotSource σ]

/-- The steps of a run. -/
def trace (h : Host σ) : List Operation → List Step
  | [] => []
  | op :: ops => ⟨op, (h.apply op).result, (h.apply op).state.store⟩ :: trace (h.apply op).state ops

/-- The operations of a run that succeed. -/
def succeeding (h : Host σ) (ops : List Operation) : List Operation :=
  ((h.trace ops).filter Step.succeeded).map Step.operation

theorem run_cons (h : Host σ) (op : Operation) (ops : List Operation) :
    h.run (op :: ops) = (h.apply op).state.run ops :=
  List.foldl_cons ..

/-- Hosts that differ only in whether a request has come run the same way. -/
theorem trace_congr (hrested : h.rested = h'.rested) (ops : List Operation) :
    h.trace ops = h'.trace ops ∧ (h.run ops).rested = (h'.run ops).rested := by
  induction ops generalizing h h' with
  | nil => exact ⟨rfl, hrested⟩
  | cons op ops ih =>
    obtain ⟨hresult, hstate⟩ := apply_congr hrested op
    rw [trace, trace, run_cons, run_cons, hresult, store_eq_of_rested hstate, (ih hstate).1]
    exact ⟨rfl, (ih hstate).2⟩

/-- A run without the operations that fail goes through the steps that succeed, and ends as the
whole run does. -/
theorem trace_succeeding (h : Host σ) (ops : List Operation) :
    h.trace (h.succeeding ops) = (h.trace ops).filter Step.succeeded ∧
      (h.run (h.succeeding ops)).rested = (h.run ops).rested := by
  induction ops generalizing h with
  | nil => exact ⟨rfl, rfl⟩
  | cons op ops ih =>
    obtain ⟨htrace, hrun⟩ := ih (h.apply op).state
    rw [succeeding] at htrace hrun ⊢
    cases hresult : (h.apply op).result with
    | ok reply =>
      have hfilter : (h.trace (op :: ops)).filter Step.succeeded =
          ⟨op, .ok reply, (h.apply op).state.store⟩ ::
            ((h.apply op).state.trace ops).filter Step.succeeded := by
        rw [trace, hresult]
        exact List.filter_cons_of_pos rfl
      rw [hfilter, List.map_cons, trace, run_cons, run_cons, htrace, hresult]
      exact ⟨rfl, hrun⟩
    | error e =>
      have hfilter : (h.trace (op :: ops)).filter Step.succeeded =
          ((h.apply op).state.trace ops).filter Step.succeeded := by
        rw [trace, hresult]
        exact List.filter_cons_of_neg Bool.false_ne_true
      obtain ⟨hsame, hend⟩ := trace_congr (apply_rested hresult)
        ((((h.apply op).state.trace ops).filter Step.succeeded).map Step.operation)
      rw [hfilter, run_cons, ← hsame, ← hend]
      exact ⟨htrace, hrun⟩

/-- Failed operations leave no trace in the store. One that fails leaves the memstore and the files
as they are, and a run without those that fail answers and stores the same. So a flush or compaction
that had to wait for a snapshot does, once it is tried again, what it would do if it had not been
tried before. -/
theorem failed_leave_no_trace (h : Host σ) :
    (∀ op e, (h.apply op).result = .error e → (h.apply op).state.store = h.store) ∧
    (∀ ops, h.trace (h.succeeding ops) = (h.trace ops).filter Step.succeeded ∧
      (h.run (h.succeeding ops)).store = (h.run ops).store) ∧
    ∀ u between, (h.upkeep u).result = .error .snapshotUnavailable →
      (((h.upkeep u).state.run between).upkeep u).result = ((h.run between).upkeep u).result ∧
        (((h.upkeep u).state.run between).upkeep u).state.store =
          ((h.run between).upkeep u).state.store := by
  refine ⟨fun op e herr => store_eq_of_rested (apply_rested herr), fun ops => ?_,
    fun u between herr => ?_⟩
  · obtain ⟨htrace, hrun⟩ := h.trace_succeeding ops
    exact ⟨htrace, store_eq_of_rested hrun⟩
  · have hrested := (trace_congr (upkeep_rested herr) between).2
    obtain ⟨hresult, hstate⟩ := upkeep_congr hrested u
    exact ⟨hresult, store_eq_of_rested hstate⟩

/-- A region with one version that flushes with a snapshot only. -/
def cautious : Host SnapshotCache :=
  run (opening
      { table := ⟨"t", []⟩, processor := { settings := { coldCachePolicy := .reject } },
        source := {} }).state
    [.put { row := [1], cells := [⟨⟨[1], [2], [3]⟩, 10, [7], []⟩] }]

/-- Its first snapshot, in which no transaction runs. -/
def settled : Snapshot := ⟨20, .empty, .empty, 0, fun _ _ => List.not_mem_nil⟩

theorem failed_leave_no_trace_cautious :
    (cautious.upkeep .flush).result = .error .snapshotUnavailable ∧
      ((((cautious.upkeep .flush).state.run [.publish settled]).upkeep .flush).state.store =
        ((cautious.run [.publish settled]).upkeep .flush).state.store) ∧
      (cautious.run (cautious.succeeding [.flush, .publish settled, .flush])).store =
        some ⟨[], [[⟨⟨[1], [2], [3]⟩, 10, [7], []⟩]]⟩ := by
  obtain ⟨-, hruns, hretry⟩ := failed_leave_no_trace cautious
  refine ⟨rfl, (hretry .flush [.publish settled] rfl).2, ?_⟩
  rw [(hruns _).2]
  rfl

end Host

end CellStore
