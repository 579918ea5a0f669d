import CellStore.Processor
import CellStore.SnapshotCache
import CellStore.Store

/-! # The region host

A host holds one region with its store, the processor that may observe it, the
source of snapshots and the clock. Its operations ask the processor first and go
to the store with what it answers. The source is whatever the region is given
when it opens, in general a cache.
-/
namespace CellStore

structure Host (σ : Type) where
  table : Table
  /-- Whether the processor is asked; a region may go without. -/
  observed : Bool := true
  processor : Processor Unit := {}
  /-- Nothing once the region is closed. -/
  store : Option Store := some {}
  source : σ
  /-- Milliseconds since the epoch. -/
  clock : Int := 0

namespace Host

variable {σ : Type}

/-- The name of the region. -/
def region (h : Host σ) : String := h.table.name ++ ",0"

def now (h : Host σ) : TxId := Tick.ofClock h.clock

def environment (h : Host σ) : Environment Unit := ⟨h.region, h.table, ()⟩

/-- Start the processor for a region that opens. -/
def startProcessor (h : Host σ) : Outcome (Host σ) Unit :=
  let o := h.processor.start h.environment
  ⟨o.result, { h with processor := o.state }, o.events⟩

/-- Open the region with an empty store. -/
def opening (h : Host σ) : Outcome (Host σ) Unit :=
  if h.observed then h.startProcessor else ⟨.ok (), h, []⟩

def closed : Error := .invalidOperation "the region is closed"

/-- Work on the store of an open region. -/
def onStore {α : Type} (h : Host σ) (work : Store → Outcome (Host σ) α) : Outcome (Host σ) α :=
  match h.store with
  | some s => work s
  | none => ⟨.error closed, h, []⟩

/-- Ask the processor, if it observes the region. -/
def ask {α : Type} (h : Host σ) (pass : α) (hook : Processor Unit → Outcome (Processor Unit) α) :
    Outcome (Host σ) α :=
  if h.observed then
    let o := hook h.processor
    ⟨o.result, { h with processor := o.state }, o.events⟩
  else ⟨.ok pass, h, []⟩

def put (h : Host σ) (p : Put) : Outcome (Host σ) Unit :=
  h.onStore fun s =>
    (h.ask p (·.preparePut p)).andThen fun p h =>
      ⟨.ok (), { h with store := some (s.write p.cells) }, []⟩

/-- The store's own delete; the processor is not asked. -/
def delete (h : Host σ) (column : Column) (timestamp : TxId) : Outcome (Host σ) Unit :=
  h.onStore fun s => ⟨.ok (), { h with store := some (s.delete column timestamp) }, []⟩

/-- The cells that a read shows, and the caller's filter after them. -/
def readWith (h : Host σ) (r : Read) : Outcome (Host σ) (List Cell) × Option Filter :=
  match h.store with
  | none => (⟨.error closed, h, []⟩, r.filter)
  | some s =>
    let o := h.ask r.plan (·.planRead h.now r)
    match o.result with
    | .error e => (⟨.error e, o.state, o.events⟩, r.filter)
    | .ok plan => (⟨(s.read plan).1, o.state, o.events⟩, plan.callerPart (s.read plan).2)

def read (h : Host σ) (r : Read) : Outcome (Host σ) (List Cell) := (h.readWith r).1

variable [SnapshotSource σ]

/-- The latest snapshot of the source. -/
def latest (h : Host σ) : Option Snapshot := SnapshotSource.latest h.source

/-- Guard a flush or compaction with the latest snapshot. -/
def openScan (h : Host σ) (upkeep : Upkeep) : Outcome (Host σ) (Option StoreScan) :=
  h.ask none (·.openScan h.now (fun _ => h.latest) upkeep)

/-- Put the outcome of work on the store in its place. -/
def settle (h : Host σ) (o : Outcome Store Unit) : Outcome (Host σ) Unit :=
  ⟨o.result, { h with store := some o.state }, o.events⟩

/-- Flush the memstore; there is nothing to do if it is empty. -/
def flush (h : Host σ) : Outcome (Host σ) Unit :=
  h.onStore fun s =>
    if s.memstore.isEmpty then ⟨.ok (), h, []⟩
    else (h.openScan .flush).andThen fun scan h => h.settle (s.flush h.region scan)

/-- Compact the files; there is nothing to do without any. -/
def compact (h : Host σ) (kind : Compaction) : Outcome (Host σ) Unit :=
  h.onStore fun s =>
    if s.files.isEmpty then ⟨.ok (), h, []⟩
    else (h.openScan (.compact kind)).andThen fun scan h => h.settle (s.compact h.region kind scan)

/-- Publish a snapshot; whether it was installed. -/
def publish (h : Host σ) (s : Snapshot) : Outcome (Host σ) Bool :=
  let (installed, source, events) := SnapshotSource.publish h.source s
  ⟨.ok installed, { h with source }, events⟩

def stop (h : Host σ) : Outcome (Host σ) Unit :=
  let (processor, events) := h.processor.stop
  ⟨.ok (), { h with processor }, events⟩

/-- Close the region and stop the processor that observes it. -/
def close (h : Host σ) : Outcome (Host σ) Unit :=
  match h.store with
  | none => ⟨.ok (), h, []⟩
  | some _ =>
    let h := { h with store := none }
    if h.observed then h.stop else ⟨.ok (), h, []⟩

/-! ## Runs -/

inductive Operation where
  | put (p : Put)
  | delete (column : Column) (timestamp : TxId)
  | read (r : Read)
  | flush
  | compact (kind : Compaction)
  | publish (s : Snapshot)
  | setClock (millis : Int)
  | stop
  /-- Open a second region of the table with the same processor. -/
  | reopen
  | close

/-- What an operation gives. -/
inductive Reply where
  | done
  | cells (cs : List Cell)
  | installed (b : Bool)
  | time (now : TxId)

def replying {α : Type} (reply : α → Reply) (o : Outcome (Host σ) α) : Outcome (Host σ) Reply :=
  ⟨o.result.map reply, o.state, o.events⟩

def apply (h : Host σ) : Operation → Outcome (Host σ) Reply
  | .put p => replying (fun _ => .done) (h.put p)
  | .delete column timestamp => replying (fun _ => .done) (h.delete column timestamp)
  | .read r => replying .cells (h.read r)
  | .flush => replying (fun _ => .done) h.flush
  | .compact kind => replying (fun _ => .done) (h.compact kind)
  | .publish s => replying .installed (h.publish s)
  | .setClock millis =>
    let h := { h with clock := millis }
    ⟨.ok (.time h.now), h, []⟩
  | .stop => replying (fun _ => .done) h.stop
  | .reopen => replying (fun _ => .done) h.startProcessor
  | .close => replying (fun _ => .done) h.close

/-- The host after some operations. -/
def run (h : Host σ) (ops : List Operation) : Host σ := ops.foldl (fun h op => (h.apply op).state) h

end Host

end CellStore
