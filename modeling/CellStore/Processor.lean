import CellStore.Outcome
import CellStore.Plan
import CellStore.Settings
import CellStore.StoreScan
import CellStore.Table

/-! # The transaction processor

The processor stands between the requests of a region and its store. It plans
the reads of transactions, turns logical deletes into delete markers, and guards
flushes and compactions with the latest snapshot. It starts once; before that its
hooks refuse every request, and once stopped they let every request pass.
-/
namespace CellStore

/-- What a start settles. The source says where the latest snapshot is found. -/
structure Context (σ : Type) where
  region : String
  ttl : TtlTable
  source : σ
deriving DecidableEq, Repr

/-- What a region hands over when it starts its processor. -/
structure Environment (σ : Type) where
  region : String
  table : Table
  source : σ
deriving DecidableEq, Repr

/-- Where a processor stands in its life. -/
inductive Stage where
  | created
  | started
  /-- A request has come since the start. -/
  | active
  | stopped
deriving DecidableEq, Repr

/-- A processor keeps the stage it is in, and apart from it what its start settled. The one is changed
without a look at the other. -/
structure Processor (σ : Type) where
  settings : Settings := {}
  codec : Codec := .messagePack
  stage : Stage := .created
  context : Option (Context σ) := none

namespace Processor

variable {σ α : Type}

def alreadyStarted : Error := .invalidOperation "transaction processor already started"

/-- The times to live that the start settled. -/
def ttl? (p : Processor σ) : Option TtlTable := p.context.map (·.ttl)

/-- Start the processor; it starts only once, and what a start settled stays. -/
def start (p : Processor σ) (env : Environment σ) : Outcome (Processor σ) Unit :=
  match p.stage with
  | .created =>
    let (ttl, events) := env.table.ttls
    match p.context with
    | some _ => ⟨.error alreadyStarted, p, events⟩
    | none =>
      ⟨.ok (), { p with stage := .started, context := some ⟨env.region, ttl, env.source⟩ },
        events ++ [.processorStarted env.region ttl.size]⟩
  | _ => ⟨.error alreadyStarted, p, []⟩

def stop (p : Processor σ) : Processor σ × List Event :=
  ({ p with stage := .stopped },
    match p.stage, p.context with
    | .stopped, _ | _, none => []
    | _, some ctx => [.processorStopped ctx.region])

/-- Serve a request: refuse it before the start, let it pass after the stop. -/
def serve (p : Processor σ) (pass : α) (work : Context σ → Except Error α × List Event) :
    Outcome (Processor σ) α :=
  match p.stage, p.context with
  | .stopped, _ => ⟨.ok pass, p, []⟩
  | .created, _ | _, none => ⟨.error .notStarted, p, []⟩
  | .started, some ctx =>
    ⟨(work ctx).1, { p with stage := .active }, .processorActive ctx.region :: (work ctx).2⟩
  | .active, some ctx => ⟨(work ctx).1, p, (work ctx).2⟩

/-- Plan a read. One that carries a transaction is answered for it, and refused if the transaction
does not decode. -/
def planRead (p : Processor σ) (now : TxId) (r : Read) : Outcome (Processor σ) Plan :=
  p.serve r.plan fun ctx =>
    match r.attributes.transaction? p.codec with
    | .error e => (.error e, [.readRejected ctx.region e])
    | .ok none => (.ok r.plan, [])
    | .ok (some t) => (.ok (r.planFor ⟨t, ctx.ttl, now⟩), [])

/-- Prepare a put. Of a logical delete only the markers are left. -/
def preparePut (p : Processor σ) (put : Put) : Outcome (Processor σ) Put :=
  p.serve put fun ctx =>
    if put.isDelete then
      (.ok put.markers, if p.settings.logDeletes then
        [.deleteMarked ctx.region put.row put.groups.length put.cells.length] else [])
    else (.ok put, [])

/-- Guard a flush or compaction, given the latest snapshot of every source. Without a snapshot the
settings say whether it runs unguarded or waits. -/
def openScan (p : Processor σ) (now : TxId) (latest : σ → Option Snapshot) (upkeep : Upkeep) :
    Outcome (Processor σ) (Option StoreScan) :=
  p.serve none fun ctx =>
    match latest ctx.source with
    | some s => (.ok (some ⟨upkeep, .ofSnapshot s ctx.ttl upkeep.purpose now⟩), [])
    | none =>
      match p.settings.coldCachePolicy with
      | .failOpen => (.ok none, [.scannedUnfiltered ctx.region upkeep.name])
      | .reject => (.error .snapshotUnavailable, [])

/-! ## Stage and context agree -/

/-- Neither started nor stopped. -/
structure Unstarted (p : Processor σ) : Prop where
  stage : p.stage = .created
  context : p.context = none

/-- Nothing is settled before the start, and while the processor serves something is. -/
structure Agrees (p : Processor σ) : Prop where
  created : p.stage = .created → p.context = none
  serving : p.stage = .started ∨ p.stage = .active → p.context.isSome = true

/-- Whether requests are refused. -/
def Refuses (p : Processor σ) : Prop := p.stage = .created ∨ p.stage ≠ .stopped ∧ p.context = none

variable {p : Processor σ}

theorem Unstarted.agrees (h : p.Unstarted) : p.Agrees :=
  ⟨fun _ => h.context, fun hserving => by simp [h.stage] at hserving⟩

theorem Agrees.unstarted (h : p.Agrees) (hstage : p.stage = .created) : p.Unstarted :=
  ⟨hstage, h.created hstage⟩

/-- Where stage and context agree, requests are refused before the start only. -/
theorem Agrees.refuses_iff (h : p.Agrees) : p.Refuses ↔ p.stage = .created := by
  refine ⟨Or.rec id fun ⟨hstopped, hnone⟩ => ?_, .inl⟩
  cases hstage : p.stage with
  | created => rfl
  | started => simpa [hnone] using h.serving (.inl hstage)
  | active => simpa [hnone] using h.serving (.inr hstage)
  | stopped => exact absurd hstage hstopped

theorem Agrees.start (h : p.Agrees) (env : Environment σ) : (p.start env).state.Agrees := by
  unfold Processor.start
  split
  · dsimp only
    split
    · exact h
    · exact ⟨nofun, fun _ => rfl⟩
  · exact h

theorem stop_agrees (p : Processor σ) : p.stop.1.Agrees :=
  ⟨nofun, nofun⟩

theorem Agrees.serve (h : p.Agrees) (pass : α) (work : Context σ → Except Error α × List Event) :
    (p.serve pass work).state.Agrees := by
  obtain ⟨settings, codec, stage, context⟩ := p
  cases stage with
  | created => exact h
  | started =>
    cases context with
    | none => exact h
    | some ctx => exact ⟨nofun, fun _ => rfl⟩
  | active => cases context <;> exact h
  | stopped => exact h

end Processor

end CellStore
