import CellStore.Proofs.Reading

/-! # The life of a processor

A processor is started, serves and is stopped, in this order and each at most once, whatever it is
asked in between and however often. What its hooks answer depends on where it stands only: before
it is started or stopped they refuse, once it is stopped they let everything pass, and in between
they go by the times to live and the snapshots of the one start that succeeded.
-/
namespace CellStore

/-- The place of a stage in the life of a processor. -/
def Stage.rank : Stage → Nat
  | created => 0
  | started => 1
  | active => 2
  | stopped => 3

/-- The rank of the stage that an event announces. -/
def Event.announces? : Event → Option Nat
  | processorStarted .. => some 1
  | processorActive .. => some 2
  | processorStopped .. => some 3
  | _ => none

/-- The ranks of the stages that some events announce. -/
def Event.announced (events : List Event) : List Nat := events.filterMap announces?

theorem Event.announced_append (events more : List Event) :
    announced (events ++ more) = announced events ++ announced more :=
  List.filterMap_append

theorem Event.announced_of_silent {events : List Event} (h : ∀ e ∈ events, e.announces? = none) :
    announced events = [] :=
  List.filterMap_eq_nil_iff.2 h

/-- Reading the times to live of a table announces no stage. -/
theorem Table.ttls_silent (t : Table) : ∀ e ∈ t.ttls.2, e.announces? = none := by
  intro e he
  simp only [ttls, TtlTable.ofProperties, List.mem_flatMap, List.mem_map] at he
  obtain ⟨_, ⟨⟨family, property⟩, -, rfl⟩, he⟩ := he
  cases property with
  | none => cases he
  | some raw =>
    simp only [TtlTable.readProperty] at he
    split at he <;> rw [List.mem_singleton.1 he] <;> rfl

/-- What a start in the environment settles. -/
def Environment.context {σ : Type} (env : Environment σ) : Context σ :=
  ⟨env.region, env.table.ttls.1, env.source⟩

def Outcome.map {σ α β : Type} (f : α → β) (o : Outcome σ α) : Outcome σ β :=
  ⟨o.result.map f, o.state, o.events⟩

namespace Processor

variable {σ α : Type}

theorem Serves.not_unstarted {p : Processor σ} {ctx : Context σ} (h : p.Serves ctx) :
    ¬p.Unstarted :=
  fun hunstarted => by simpa [hunstarted.context] using h.context

theorem Serves.not_refuses {p : Processor σ} {ctx : Context σ} (h : p.Serves ctx) : ¬p.Refuses := by
  rcases h.stage with hstage | hstage <;> simp [Refuses, hstage, h.context]

/-- What may be asked of a processor. The hooks are given the time, and what every source of
snapshots holds. -/
inductive Call (σ : Type) where
  | start (env : Environment σ)
  | stop
  | read (now : TxId) (r : Read)
  | put (p : Put)
  | upkeep (now : TxId) (latest : σ → Option Snapshot) (u : Upkeep)

namespace Call

/-- Whether a call asks a hook. -/
def isHook : Call σ → Bool
  | start _ | stop => false
  | read .. | put _ | upkeep .. => true

end Call

/-- What a call gives when it succeeds. -/
inductive Answer where
  | done
  | plan (p : Plan)
  | put (p : Put)
  | scan (s : Option StoreScan)

def call (p : Processor σ) : Call σ → Outcome (Processor σ) Answer
  | .start env => (p.start env).map fun _ => .done
  | .stop => ⟨.ok .done, p.stop.1, p.stop.2⟩
  | .read now r => (p.planRead now r).map .plan
  | .put put => (p.preparePut put).map .put
  | .upkeep now latest u => (p.openScan now latest u).map .scan

/-- The processor after some calls. -/
def after (p : Processor σ) (calls : List (Call σ)) : Processor σ :=
  calls.foldl (fun p k => (p.call k).state) p

/-- All that is reported over some calls. -/
def reported (p : Processor σ) : List (Call σ) → List Event
  | [] => []
  | k :: calls => (p.call k).events ++ reported (p.call k).state calls

/-- Whether a start among some calls succeeds. -/
def Starts (p : Processor σ) (calls : List (Call σ)) : Prop :=
  ∃ before env later, calls = before ++ .start env :: later ∧
    ((p.after before).call (.start env)).result = .ok .done

theorem after_append (p : Processor σ) (calls more : List (Call σ)) :
    p.after (calls ++ more) = (p.after calls).after more :=
  List.foldl_append

theorem after_cons (p : Processor σ) (k : Call σ) (calls : List (Call σ)) :
    p.after (k :: calls) = (p.call k).state.after calls :=
  List.foldl_cons ..

variable {p : Processor σ} {ctx : Context σ} {k : Call σ} {env : Environment σ}
  {calls : List (Call σ)}

/-! ## One call -/

/-- A hook of a processor that refuses requests asks too early. -/
theorem call_refused (hrefuses : p.Refuses) (hk : k.isHook = true) :
    p.call k = ⟨.error .notStarted, p, []⟩ := by
  cases k with
  | start env => cases hk
  | stop => cases hk
  | read now r => simp [call, planRead, serve_of_refuses hrefuses, Outcome.map, Except.map]
  | put put => simp [call, preparePut, serve_of_refuses hrefuses, Outcome.map, Except.map]
  | upkeep now latest u => simp [call, openScan, serve_of_refuses hrefuses, Outcome.map, Except.map]

/-- A start succeeds on a processor that was neither started nor stopped, and on no other. -/
theorem call_start (p : Processor σ) (env : Environment σ) :
    (p.Unstarted ∧ (p.call (.start env)).result = .ok .done ∧
      (p.call (.start env)).state = { p with stage := .started, context := some env.context }) ∨
    (¬p.Unstarted ∧ (p.call (.start env)).result = .error alreadyStarted ∧
      (p.call (.start env)).state = p) := by
  obtain ⟨settings, codec, stage, context⟩ := p
  cases stage with
  | created =>
    cases context with
    | none => exact .inl ⟨⟨rfl, rfl⟩, rfl, rfl⟩
    | some ctx => exact .inr ⟨fun h => by simpa using h.context, rfl, rfl⟩
  | started => exact .inr ⟨fun h => by simpa using h.stage, rfl, rfl⟩
  | active => exact .inr ⟨fun h => by simpa using h.stage, rfl, rfl⟩
  | stopped => exact .inr ⟨fun h => by simpa using h.stage, rfl, rfl⟩

/-- What a stopped processor answers: it lets every request pass as it is. -/
def Call.passed : Call σ → Except Error Answer
  | start _ => .error alreadyStarted
  | stop => .ok .done
  | read _ r => .ok (.plan r.plan)
  | put p => .ok (.put p)
  | upkeep .. => .ok (.scan none)

theorem call_stopped (hstage : p.stage = .stopped) (k : Call σ) :
    p.call k = ⟨k.passed, p, []⟩ := by
  cases k with
  | start env => simp [call, start, hstage, Outcome.map, Except.map, Call.passed]
  | stop =>
    obtain ⟨settings, codec, stage, context⟩ := p
    cases hstage
    rfl
  | read now r => simp [call, planRead, serve_of_stopped hstage, Outcome.map, Except.map, Call.passed]
  | put put => simp [call, preparePut, serve_of_stopped hstage, Outcome.map, Except.map, Call.passed]
  | upkeep now latest u =>
    simp [call, openScan, serve_of_stopped hstage, Outcome.map, Except.map, Call.passed]

/-- What a processor that serves answers by the times to live and the source of snapshots that it
goes by. -/
def Call.served (settings : Settings) (codec : Codec) (ttl : TtlTable) (source : σ) :
    Call σ → Except Error Answer
  | start _ => .error alreadyStarted
  | stop => .ok .done
  | read now r => (r.attributes.transaction? codec).map fun t =>
    .plan (t.elim r.plan fun t => r.planFor ⟨t, ttl, now⟩)
  | put p => .ok (.put (if p.isDelete then p.markers else p))
  | upkeep now latest u =>
    if latest source = none ∧ settings.coldCachePolicy = .reject then .error .snapshotUnavailable
    else .ok (.scan ((latest source).map fun s => ⟨u, .ofSnapshot s ttl u.purpose now⟩))

theorem call_serves (hserves : p.Serves ctx) (k : Call σ) :
    (p.call k).result = k.served p.settings p.codec ctx.ttl ctx.source := by
  cases k with
  | start env =>
    rcases p.call_start env with ⟨hunstarted, -, -⟩ | ⟨-, hresult, -⟩
    · exact absurd hunstarted hserves.not_unstarted
    · exact hresult
  | stop => rfl
  | read now r =>
    simp only [call, planRead, Outcome.map, (serve_of_serves hserves _ _).1, Call.served]
    cases r.attributes.transaction? p.codec with
    | error e => rfl
    | ok t => cases t <;> rfl
  | put put =>
    simp only [call, preparePut, Outcome.map, (serve_of_serves hserves _ _).1, Call.served]
    split_ifs <;> rfl
  | upkeep now latest u =>
    simp only [call, Outcome.map, openScan_of_serves hserves, Call.served]
    split_ifs <;> rfl

/-- A processor that serves goes on in its context until it is stopped. -/
theorem call_keeps_serving (hserves : p.Serves ctx) (hk : k ≠ .stop) :
    (p.call k).state.Serves ctx := by
  cases k with
  | start env =>
    rcases p.call_start env with ⟨hunstarted, -, -⟩ | ⟨-, -, hstate⟩
    · exact absurd hunstarted hserves.not_unstarted
    · rwa [hstate]
  | stop => exact absurd rfl hk
  | read now r => simpa [call, planRead, Outcome.map, serve_of_serves hserves] using hserves.activated
  | put put => simpa [call, preparePut, Outcome.map, serve_of_serves hserves] using hserves.activated
  | upkeep now latest u =>
    simpa [call, openScan, Outcome.map, serve_of_serves hserves] using hserves.activated

/-- No call changes the settings or the codec. -/
theorem call_frame (p : Processor σ) (k : Call σ) :
    (p.call k).state.settings = p.settings ∧ (p.call k).state.codec = p.codec := by
  obtain ⟨settings, codec, stage, context⟩ := p
  cases k <;> cases stage <;> cases context <;> exact ⟨rfl, rfl⟩

/-- Every call keeps stage and context in agreement. -/
theorem call_agrees (h : p.Agrees) (k : Call σ) : (p.call k).state.Agrees := by
  cases k with
  | start env => exact h.start env
  | stop => exact p.stop_agrees
  | read now r =>
    simp only [call, Outcome.map, planRead]
    exact h.serve _ _
  | put put =>
    simp only [call, Outcome.map, preparePut]
    exact h.serve _ _
  | upkeep now latest u =>
    simp only [call, Outcome.map, openScan]
    exact h.serve _ _

/-- What a start settled is there for good. -/
theorem call_context (hcontext : p.context = some ctx) (k : Call σ) :
    (p.call k).state.context = some ctx := by
  obtain ⟨settings, codec, stage, context⟩ := p
  cases hcontext
  cases k <;> cases stage <;> rfl

/-! ## The stages announced -/

/-- The processor does not go back, and it announces at most the stage that it goes on to. -/
structure Advances (p : Processor σ) (o : Outcome (Processor σ) α) : Prop where
  forward : p.stage.rank ≤ o.state.stage.rank
  announced : Event.announced o.events = [] ∨
    p.stage.rank < o.state.stage.rank ∧ Event.announced o.events = [o.state.stage.rank]

theorem Advances.quiet {o : Outcome (Processor σ) α} (hstate : o.state = p)
    (hevents : Event.announced o.events = []) : p.Advances o :=
  ⟨by rw [hstate], .inl hevents⟩

theorem Advances.map {β : Type} {o : Outcome (Processor σ) α} (h : p.Advances o) (f : α → β) :
    p.Advances (o.map f) :=
  ⟨h.forward, h.announced⟩

theorem serve_advances (p : Processor σ) (pass : α) {work : Context σ → Except Error α × List Event}
    (hwork : ∀ ctx, ∀ e ∈ (work ctx).2, e.announces? = none) : p.Advances (p.serve pass work) := by
  obtain ⟨settings, codec, stage, context⟩ := p
  have hsilent (ctx : Context σ) : Event.announced (work ctx).2 = [] :=
    Event.announced_of_silent (hwork ctx)
  cases context with
  | none => cases stage <;> exact .quiet rfl rfl
  | some ctx =>
    cases stage with
    | created => exact .quiet rfl rfl
    | started =>
      refine ⟨(by decide : 1 ≤ 2), .inr ⟨(by decide : 1 < 2), ?_⟩⟩
      exact (Event.announced_append [.processorActive ctx.region] _).trans (by rw [hsilent]; rfl)
    | active => exact .quiet rfl (hsilent ctx)
    | stopped => exact .quiet rfl rfl

theorem start_advances (p : Processor σ) (env : Environment σ) : p.Advances (p.start env) := by
  obtain ⟨settings, codec, stage, context⟩ := p
  have hsilent : Event.announced env.table.ttls.2 = [] :=
    Event.announced_of_silent (Table.ttls_silent _)
  cases stage with
  | created =>
    cases context with
    | none =>
      refine ⟨Nat.zero_le _, .inr ⟨(by decide : 0 < 1), ?_⟩⟩
      simp only [start, Event.announced_append, hsilent]
      rfl
    | some ctx => exact .quiet rfl hsilent
  | started => exact .quiet rfl rfl
  | active => exact .quiet rfl rfl
  | stopped => exact .quiet rfl rfl

theorem stop_advances (p : Processor σ) : p.Advances ⟨.ok (), p.stop.1, p.stop.2⟩ := by
  obtain ⟨settings, codec, stage, context⟩ := p
  have hrank : stage.rank ≤ 3 := by cases stage <;> decide
  refine ⟨hrank, ?_⟩
  cases context with
  | none => cases stage <;> exact .inl rfl
  | some ctx =>
    cases stage with
    | created => exact .inr ⟨(by decide : 0 < 3), rfl⟩
    | started => exact .inr ⟨(by decide : 1 < 3), rfl⟩
    | active => exact .inr ⟨(by decide : 2 < 3), rfl⟩
    | stopped => exact .inl rfl

theorem call_advances (p : Processor σ) (k : Call σ) : p.Advances (p.call k) := by
  cases k with
  | start env => exact (p.start_advances env).map _
  | stop => exact ⟨p.stop_advances.forward, p.stop_advances.announced⟩
  | read now r =>
    refine (p.serve_advances _ fun ctx e he => ?_).map _
    split at he
    · rw [List.mem_singleton.1 he]
      rfl
    · cases he
    · cases he
  | put put =>
    refine (p.serve_advances _ fun ctx e he => ?_).map _
    split_ifs at he
    · rw [List.mem_singleton.1 he]
      rfl
    · cases he
    · cases he
  | upkeep now latest u =>
    refine (p.serve_advances _ fun ctx e he => ?_).map _
    split at he
    · cases he
    · split at he
      · rw [List.mem_singleton.1 he]
        rfl
      · cases he

/-! ## A life -/

theorem after_forward (p : Processor σ) (calls : List (Call σ)) :
    p.stage.rank ≤ (p.after calls).stage.rank := by
  induction calls generalizing p with
  | nil => exact Nat.le_refl _
  | cons k calls ih => exact (p.call_advances k).forward.trans (ih _)

theorem after_agrees (h : p.Agrees) (calls : List (Call σ)) : (p.after calls).Agrees := by
  induction calls generalizing p with
  | nil => exact h
  | cons k calls ih => exact ih (call_agrees h k)

theorem after_context (hcontext : p.context = some ctx) (calls : List (Call σ)) :
    (p.after calls).context = some ctx := by
  induction calls generalizing p with
  | nil => exact hcontext
  | cons k calls ih => exact ih (call_context hcontext k)

/-- The stages are announced in their order, each at most once. -/
theorem reported_announced (p : Processor σ) (calls : List (Call σ)) :
    (Event.announced (p.reported calls)).Pairwise (· < ·) ∧
      ∀ rank ∈ Event.announced (p.reported calls), p.stage.rank < rank := by
  induction calls generalizing p with
  | nil => simp [reported, Event.announced]
  | cons k calls ih =>
    obtain ⟨hsorted, habove⟩ := ih (p.call k).state
    have hadvances := p.call_advances k
    rw [reported, Event.announced_append]
    rcases hadvances.announced with hnone | ⟨hlt, hone⟩
    · rw [hnone]
      exact ⟨hsorted, fun rank hrank => hadvances.forward.trans_lt (habove rank hrank)⟩
    · rw [hone, List.singleton_append]
      refine ⟨List.pairwise_cons.2 ⟨habove, hsorted⟩, fun rank hrank => ?_⟩
      rcases List.mem_cons.1 hrank with rfl | hrank
      · exact hlt
      · exact hlt.trans (habove rank hrank)

theorem after_frame (p : Processor σ) (calls : List (Call σ)) :
    (p.after calls).settings = p.settings ∧ (p.after calls).codec = p.codec := by
  induction calls generalizing p with
  | nil => exact ⟨rfl, rfl⟩
  | cons k calls ih =>
    rw [after_cons, (ih _).1, (ih _).2]
    exact p.call_frame k

theorem after_hooks (hrefuses : p.Refuses) (hcalls : ∀ k ∈ calls, k.isHook = true) :
    p.after calls = p := by
  induction calls with
  | nil => rfl
  | cons k calls ih =>
    rw [after_cons, call_refused hrefuses (hcalls k List.mem_cons_self)]
    exact ih fun k hk => hcalls k (List.mem_cons_of_mem _ hk)

theorem after_stopped (hstage : p.stage = .stopped) (calls : List (Call σ)) :
    p.after calls = p := by
  induction calls with
  | nil => rfl
  | cons k calls ih =>
    rw [after_cons, call_stopped hstage]
    exact ih

theorem after_stop (p : Processor σ) (hstop : .stop ∈ calls) : (p.after calls).stage = .stopped := by
  obtain ⟨before, later, rfl⟩ := List.append_of_mem hstop
  rw [after_append, after_cons]
  exact congrArg stage (after_stopped rfl later)

theorem after_keeps_serving (hserves : p.Serves ctx) (hstop : .stop ∉ calls) :
    (p.after calls).Serves ctx := by
  induction calls generalizing p with
  | nil => exact hserves
  | cons k calls ih =>
    rw [List.mem_cons, not_or] at hstop
    exact ih (call_keeps_serving hserves (Ne.symm hstop.1)) hstop.2

/-- A start succeeds if and only if the processor was neither started nor stopped. -/
theorem call_start_ok_iff : (p.call (.start env)).result = .ok .done ↔ p.Unstarted := by
  rcases p.call_start env with ⟨hunstarted, hresult, -⟩ | ⟨hnot, hresult, -⟩
  · simp [hunstarted, hresult]
  · simp [hnot, hresult]

/-- Nothing has come of the calls to a new processor while no start succeeded and it was not
stopped. -/
theorem after_created_iff (hunstarted : p.Unstarted) :
    (p.after calls).stage = .created ↔ ¬p.Starts calls ∧ .stop ∉ calls := by
  constructor
  · intro hcreated
    constructor
    · rintro ⟨before, env, later, rfl, hok⟩
      rcases (p.after before).call_start env with ⟨-, -, hstarted⟩ | ⟨hnot, -, -⟩
      · have hforward := after_forward ((p.after before).call (.start env)).state later
        rw [← after_cons, ← after_append, hcreated, hstarted] at hforward
        simp [Stage.rank] at hforward
      · exact hnot (call_start_ok_iff.1 hok)
    · intro hstop
      simp [p.after_stop hstop] at hcreated
  · rintro ⟨hstarts, hstop⟩
    have hrefuses : p.Refuses := .inl hunstarted.stage
    -- The first call that asks no hook would be a stop or a start that succeeds.
    cases hfind : calls.find? (fun k => !k.isHook) with
    | none =>
      rw [after_hooks hrefuses (by simpa using hfind), hunstarted.stage]
    | some k =>
      obtain ⟨hk, before, later, rfl, hbefore⟩ := List.find?_eq_some_iff_append.1 hfind
      cases k with
      | start env =>
        refine absurd ⟨before, env, later, rfl, call_start_ok_iff.2 ?_⟩ hstarts
        rwa [after_hooks hrefuses (by simpa using hbefore)]
      | stop => exact absurd (by simp) hstop
      | read now r => cases hk
      | put put => cases hk
      | upkeep now latest u => cases hk

theorem after_serves {before between : List (Call σ)}
    (hok : ((p.after before).call (.start env)).result = .ok .done) (hstop : .stop ∉ between) :
    (p.after (before ++ .start env :: between)).Serves env.context := by
  rw [after_append, after_cons]
  apply after_keeps_serving _ hstop
  rcases (p.after before).call_start env with ⟨-, -, hstarted⟩ | ⟨hnot, -, -⟩
  · rw [hstarted]
    exact ⟨.inl rfl, rfl⟩
  · exact absurd (call_start_ok_iff.1 hok) hnot

/-- A processor that serves refuses no hook as too early. -/
theorem Call.served_ne_notStarted
    (hcodec : ∀ bytes e, p.codec.decode bytes = .error e → ∃ reason, e = .decode reason)
    (hk : k.isHook = true) (ctx : Context σ) :
    k.served p.settings p.codec ctx.ttl ctx.source ≠ .error .notStarted := by
  cases k with
  | start env => cases hk
  | stop => cases hk
  | read now r =>
    simp only [served, Attributes.transaction?]
    cases r.attributes.get? Attributes.transactionKey with
    | none => simp [Except.map]
    | some bytes =>
      cases hdec : p.codec.decode bytes with
      | error e =>
        obtain ⟨reason, rfl⟩ := hcodec bytes e hdec
        simp [hdec, Except.map]
      | ok t => simp [hdec, Except.map]
  | put put => simp [served]
  | upkeep now latest u =>
    simp only [served]
    split_ifs <;> simp

/-- A hook is refused as too early if and only if the processor refuses requests. -/
theorem call_notStarted_iff
    (hcodec : ∀ bytes e, p.codec.decode bytes = .error e → ∃ reason, e = .decode reason)
    (hk : k.isHook = true) : (p.call k).result = .error .notStarted ↔ p.Refuses := by
  rcases p.refuses_or_serves with hrefuses | ⟨ctx, hserves⟩ | hstopped
  · simp [call_refused hrefuses hk, hrefuses]
  · rw [call_serves hserves]
    exact iff_of_false (Call.served_ne_notStarted hcodec hk ctx) hserves.not_refuses
  · have hnot : ¬p.Refuses := by simp [Refuses, hstopped]
    rw [call_stopped hstopped]
    cases k <;> simp_all [Call.passed, Call.isHook]

/-- How a processor lives that was neither started nor stopped before. -/
structure Lifecycle (p : Processor σ) : Prop where
  /-- The stage never goes back. -/
  forward : ∀ calls more, (p.after calls).stage.rank ≤ (p.after (calls ++ more)).stage.rank
  /-- Stage and context agree at all times. -/
  agrees : ∀ calls, (p.after calls).Agrees
  /-- What was settled is there for good. -/
  settled : ∀ calls more ctx, (p.after calls).context = some ctx →
    (p.after (calls ++ more)).context = some ctx
  /-- One start succeeds at most, and none after a stop. -/
  start : ∀ before env, ((p.after before).call (.start env)).result = .ok .done ↔
    ¬p.Starts before ∧ .stop ∉ before
  /-- The hooks refuse requests until the start or a stop, and only until then. -/
  refuses : ∀ before k, k.isHook = true →
    (((p.after before).call k).result = .error .notStarted ↔ ¬p.Starts before ∧ .stop ∉ before)
  /-- After a stop every request passes as it is, and nothing happens. -/
  passes : ∀ before k, .stop ∈ before → (p.after before).call k = ⟨k.passed, p.after before, []⟩
  /-- In between, the hooks go by the times to live and the snapshots of the start that
  succeeded. -/
  serves : ∀ before env between k, ((p.after before).call (.start env)).result = .ok .done →
    .stop ∉ between → ((p.after (before ++ .start env :: between)).call k).result =
      k.served p.settings p.codec env.table.ttls.1 env.source
  /-- The stages are announced in their order, each at most once. -/
  announces : ∀ calls, (Event.announced (p.reported calls)).Pairwise (· < ·)

/-- A processor lives as it should with every codec that reports bytes that are no transaction as
such. -/
theorem lifecycle (hunstarted : p.Unstarted)
    (hcodec : ∀ bytes e, p.codec.decode bytes = .error e → ∃ reason, e = .decode reason) :
    p.Lifecycle where
  forward calls more := by
    rw [after_append]
    exact after_forward _ more
  agrees := after_agrees hunstarted.agrees
  settled calls more ctx hcontext := by
    rw [after_append]
    exact after_context hcontext more
  start before env := by
    rw [call_start_ok_iff, ← after_created_iff hunstarted]
    exact ⟨Unstarted.stage, (after_agrees hunstarted.agrees before).unstarted⟩
  refuses before k hk := by
    rw [← after_created_iff hunstarted, ← (after_agrees hunstarted.agrees before).refuses_iff]
    apply call_notStarted_iff _ hk
    rwa [(p.after_frame before).2]
  passes before k hstop := call_stopped (p.after_stop hstop) k
  serves before env between k hok hstop := by
    rw [call_serves (after_serves hok hstop), (p.after_frame _).1, (p.after_frame _).2]
    rfl
  announces calls := (p.reported_announced calls).1

theorem lifecycle_default :
    ({} : Processor Unit).Unstarted ∧ ({} : Processor Unit).Lifecycle :=
  ⟨⟨rfl, rfl⟩, lifecycle ⟨rfl, rfl⟩ fun _ _ => Codec.messagePack_decode_error⟩

/-- Stopped before it was started, a processor is not to be started any more. -/
example (env : Environment Unit) :
    ((({} : Processor Unit).after [.stop]).call (.start env)).result = .error alreadyStarted :=
  rfl

end Processor

end CellStore
