import Mathlib.Data.List.Induction
import CellStore.Proofs.Lookups
import CellStore.Proofs.Maintenance

/-! # Histories of a region

While its processor serves, a region is written to by puts and by deletes only, and of a
logical delete it gets the markers. All operations but a stop and a close leave the processor
serving. Writes go to the store as they are, flushes and compactions rewrite it, and nothing
else changes it.
-/
namespace CellStore.Host

/-- The cells that an operation writes while the processor serves. -/
def Operation.writes : Operation → List Cell
  | .put p => if p.isDelete then p.markers.cells else p.cells
  | .delete column timestamp => [⟨column, timestamp, [], [Tag.tombstone]⟩]
  | _ => []

/-- All that operations write, in their order. -/
def log (ops : List Operation) : List Cell := ops.flatMap Operation.writes

/-- Whether the processor goes on serving after an operation. -/
def Operation.GoesOn (op : Operation) : Prop := op ≠ .stop ∧ op ≠ .close

theorem log_snoc (ops : List Operation) (op : Operation) :
    log (ops ++ [op]) = log ops ++ op.writes := by
  simp [log]

variable {σ : Type} {h : Host σ} {ctx : Context Unit} {s : Store}

theorem Running.preparePut_result (hrun : h.Running ctx) (p : Put) :
    ∃ p', (h.processor.preparePut p).result = .ok p' ∧ p'.cells = Operation.writes (.put p) := by
  rw [Processor.preparePut, (Processor.serve_of_serves hrun.serves _ _).1]
  by_cases hd : p.isDelete = true
  · exact ⟨p.markers, by simp [hd], by simp [Operation.writes, hd]⟩
  · exact ⟨p, by simp [hd], by simp [Operation.writes, hd]⟩

/-- A put writes its cells and leaves the processor active. -/
theorem Running.put_state (hrun : h.Running ctx) (hs : h.store = some s) (p : Put) :
    (h.put p).state =
      { h.activated with store := some (s.write (Operation.writes (.put p))) } := by
  obtain ⟨p', hp', hcells⟩ := hrun.preparePut_result p
  have hresult : (h.ask p (·.preparePut p)).result = .ok p' := (hrun.ask_result p _).trans hp'
  have hstate : (h.ask p (·.preparePut p)).state = h.activated := by
    rw [ask, if_pos hrun.observed, activated]
    simp only [Processor.preparePut, (Processor.serve_of_serves hrun.serves _ _).2]
  rw [put, onStore, hs]
  dsimp only
  rw [(Outcome.andThen_ok hresult _).2, hstate, hcells]

theorem Running.read_state (hrun : h.Running ctx) (hs : h.store = some s) (r : Read) :
    (h.read r).state = h.activated := by
  have hstate : (h.ask r.plan (·.planRead h.now r)).state = h.activated := by
    rw [ask, if_pos hrun.observed, activated]
    simp only [Processor.planRead, (Processor.serve_of_serves hrun.serves _ _).2]
  simp only [read, readWith, hs]
  split <;> exact hstate

/-- Opening a region starts the processor that observes it. -/
theorem Fresh.running (hfresh : h.Fresh) (hobserved : h.observed = true) :
    ∃ ctx, h.opening.state.Running ctx := by
  refine ⟨⟨h.region, h.table.ttls.1, ()⟩, ?_⟩
  simp only [opening, if_pos hobserved, startProcessor, Processor.start, hfresh.unstarted.stage,
    hfresh.unstarted.context]
  exact ⟨hobserved, .inl rfl, rfl⟩

variable [SnapshotSource σ]

theorem run_snoc (h : Host σ) (ops : List Operation) (op : Operation) :
    h.run (ops ++ [op]) = ((h.run ops).apply op).state := by
  simp [run]

/-- What one operation does. A flush or compaction writes nothing of its own; all others write to
the store and leave it be otherwise, and the snapshot held stays unless one is published. -/
theorem Running.apply_cases (hrun : h.Running ctx) (hs : h.store = some s) {op : Operation}
    (hop : op.GoesOn) :
    (∃ processor source clock, (h.apply op).state =
        { h with processor, store := some (s.write op.writes), source, clock } ∧
      processor.Serves ctx ∧ (source = h.source ∨ ∃ snapshot, op = .publish snapshot)) ∨
    ∃ u, (h.apply op).state = (h.upkeep u).state ∧ op.writes = [] := by
  have hkeep : some (s.write []) = h.store := hs.symm
  cases op with
  | put p =>
    exact .inl ⟨h.activated.processor, h.source, h.clock, hrun.put_state hs p, hrun.serves.activated,
      .inl rfl⟩
  | delete column timestamp =>
    refine .inl ⟨h.processor, h.source, h.clock, ?_, hrun.serves, .inl rfl⟩
    simp only [Host.apply, replying, delete, onStore, hs]
    rfl
  | read r =>
    refine .inl ⟨h.activated.processor, h.source, h.clock, ?_, hrun.serves.activated, .inl rfl⟩
    apply (hrun.read_state hs r).trans
    simp only [Operation.writes, hkeep]
    rfl
  | flush => exact .inr ⟨.flush, rfl, rfl⟩
  | compact kind => exact .inr ⟨.compact kind, rfl, rfl⟩
  | publish snapshot =>
    refine .inl ⟨h.processor, (h.publish snapshot).state.source, h.clock, ?_, hrun.serves,
      .inr ⟨snapshot, rfl⟩⟩
    simp only [Operation.writes, hkeep]
    rfl
  | setClock millis =>
    refine .inl ⟨h.processor, h.source, millis, ?_, hrun.serves, .inl rfl⟩
    simp only [Operation.writes, hkeep]
    rfl
  | stop => exact absurd rfl hop.1
  | reopen =>
    have hstart : (h.processor.start h.environment).state = h.processor := by
      rcases hrun.serves.stage with hstage | hstage <;> simp [Processor.start, hstage]
    refine .inl ⟨h.processor, h.source, h.clock, ?_, hrun.serves, .inl rfl⟩
    simp only [Host.apply, replying, startProcessor, hstart, Operation.writes, hkeep]
  | close => exact absurd rfl hop.2

/-- The processor goes on serving unless it is stopped. -/
theorem Running.apply (hr : h.Reachable) (hrun : h.Running ctx) {op : Operation} (hop : op.GoesOn) :
    (h.apply op).state.Running ctx := by
  obtain ⟨s, hs⟩ := hr.open_of_running hrun
  rcases hrun.apply_cases hs hop with ⟨processor, source, clock, hstate, hserves, -⟩ | ⟨u, hstate, -⟩
  · rw [hstate]
    exact ⟨hrun.observed, hserves⟩
  · rw [hstate]
    exact (hrun.upkeep u).1

theorem Running.run (hr : h.Reachable) (hrun : h.Running ctx) {ops : List Operation}
    (hops : ∀ op ∈ ops, op.GoesOn) : (h.run ops).Running ctx := by
  induction ops generalizing h with
  | nil => exact hrun
  | cons op ops ih =>
    rw [List.forall_mem_cons] at hops
    exact ih (hr.step op) (hrun.apply hr hops.1) hops.2

/-! ## Snapshots -/

/-- A snapshot is installed unless it falls behind the one held. -/
theorem publish_cases [LawfulSource σ] (h : Host σ) (snapshot : Snapshot) :
    ((h.publish snapshot).result = .ok true ∧ (h.publish snapshot).state.latest = some snapshot ∧
        ∀ held, h.latest = some held → held.upperBound ≤ snapshot.upperBound) ∨
      (h.publish snapshot).state.latest = h.latest := by
  rcases LawfulSource.publish_cases h.source snapshot with ⟨hinstalled, hlatest, hbound⟩ | hlatest
  · exact .inl ⟨congrArg Except.ok hinstalled, hlatest, hbound⟩
  · exact .inr hlatest

/-- Operations among which a snapshot is published and installed. -/
def Installs (h : Host σ) (ops : List Operation) (snapshot : Snapshot) : Prop :=
  ∃ done rest, ops = done ++ .publish snapshot :: rest ∧
    ((h.run done).publish snapshot).result = .ok true

theorem Installs.append {ops : List Operation} {snapshot : Snapshot} (hi : h.Installs ops snapshot)
    (more : List Operation) : h.Installs (ops ++ more) snapshot := by
  obtain ⟨done, rest, rfl, hresult⟩ := hi
  exact ⟨done, rest ++ more, by simp, hresult⟩

section

variable [LawfulSource σ] {ops : List Operation} {next : Operation}
variable (hr : h.Reachable) (hrun : h.Running ctx) (hops : ∀ op ∈ ops ++ [next], op.GoesOn)
include hr hrun hops

/-- The snapshot held is replaced by one that does not fall behind it, or stays. -/
theorem Running.latest_cases :
    (∃ snapshot, h.Installs (ops ++ [next]) snapshot ∧
        (h.run (ops ++ [next])).latest = some snapshot ∧ ∀ held, (h.run ops).latest = some held →
          held.upperBound ≤ snapshot.upperBound) ∨
      (h.run (ops ++ [next])).latest = (h.run ops).latest := by
  have hgoes : next.GoesOn := hops next (by simp)
  have hrun' : (h.run ops).Running ctx := hrun.run hr fun op hop => hops op (by simp [hop])
  obtain ⟨s, hs⟩ := (hr.run ops).open_of_running hrun'
  rw [run_snoc]
  rcases hrun'.apply_cases hs hgoes with
    ⟨processor, source, clock, hstate, -, hsource | ⟨snapshot, rfl⟩⟩ | ⟨u, hstate, -⟩
  · rw [hstate]
    exact .inr (congrArg SnapshotSource.latest hsource)
  · rcases (h.run ops).publish_cases snapshot with ⟨hresult, hlatest, hbound⟩ | hlatest
    · exact .inl ⟨snapshot, ⟨ops, [], rfl, hresult⟩, hlatest, hbound⟩
    · exact .inr hlatest
  · obtain ⟨processor, store, hframe, -⟩ := hrun'.upkeep_frame u
    rw [hstate, hframe]
    exact .inr rfl

/-- The bound of the latest snapshot never falls. -/
theorem Running.latest_snoc {held : Snapshot} (hheld : (h.run ops).latest = some held) :
    ∃ latest, (h.run (ops ++ [next])).latest = some latest ∧
      held.upperBound ≤ latest.upperBound := by
  rcases hrun.latest_cases hr hops with ⟨snapshot, -, hlatest, hbound⟩ | hlatest
  · exact ⟨snapshot, hlatest, hbound held hheld⟩
  · exact ⟨held, hlatest.trans hheld, UInt64.le_refl _⟩

end

/-- The latest snapshot was there from the start or is one that was installed. -/
theorem Running.latest_installed [LawfulSource σ] (hr : h.Reachable) (hrun : h.Running ctx)
    {ops : List Operation}
    (hops : ∀ op ∈ ops, op.GoesOn) {snapshot : Snapshot}
    (hlatest : (h.run ops).latest = some snapshot) :
    h.latest = some snapshot ∨ h.Installs ops snapshot := by
  induction ops using List.reverseRecOn with
  | nil => exact .inl hlatest
  | append_singleton ops next ih =>
    rcases hrun.latest_cases hr hops with ⟨installed, hi, hinstalled, -⟩ | hkept
    · rw [hinstalled] at hlatest
      cases hlatest
      exact .inr hi
    · rw [hkept] at hlatest
      exact (ih (fun op hop => hops op (by simp [hop])) hlatest).imp id fun hi => hi.append [next]

end CellStore.Host
