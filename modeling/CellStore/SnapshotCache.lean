import CellStore.Event
import CellStore.Snapshot

/-! # The latest snapshot

A cache holds the snapshot published last. Bounds never fall: a snapshot with a
lower bound than the one held is refused. A refresh asks a provider for a
snapshot and publishes it; a background run refreshes again and again until it
is told to stop.
-/
namespace CellStore

/-- Where the latest snapshot is found, and what a publication makes of it: whether the snapshot was
installed, the source after it, and what is reported. -/
class SnapshotSource (σ : Type) where
  latest : σ → Option Snapshot
  publish : σ → Snapshot → Bool × σ × List Event

/-- A source that installs a snapshot or keeps the one it holds, and whose bound never falls. -/
class LawfulSource (σ : Type) [SnapshotSource σ] : Prop where
  publish_cases (source : σ) (s : Snapshot) :
    ((SnapshotSource.publish source s).1 = true ∧
        SnapshotSource.latest (SnapshotSource.publish source s).2.1 = some s ∧
        ∀ held, SnapshotSource.latest source = some held → held.upperBound ≤ s.upperBound) ∨
      SnapshotSource.latest (SnapshotSource.publish source s).2.1 = SnapshotSource.latest source

structure SnapshotCache where
  latest : Option Snapshot := none
deriving DecidableEq, Repr

namespace SnapshotCache

def isWarm (c : SnapshotCache) : Bool := c.latest.isSome

/-- Install a snapshot unless its bound is lower than the one held; whether it was installed. -/
def publish (c : SnapshotCache) (s : Snapshot) : Bool × SnapshotCache × List Event :=
  match c.latest with
  | some held =>
    if s.upperBound < held.upperBound then
      (false, c, [.snapshotRegressed held.upperBound s.upperBound])
    else (true, ⟨some s⟩, [])
  | none => (true, ⟨some s⟩, [])

instance : SnapshotSource SnapshotCache := ⟨latest, publish⟩

instance : LawfulSource SnapshotCache where
  publish_cases c s := by
    simp only [SnapshotSource.publish, SnapshotSource.latest, publish]
    cases hheld : c.latest with
    | none => simp
    | some held => by_cases hlt : s.upperBound < held.upperBound <;> simp [hlt, hheld, ← UInt64.not_lt]

/-- What a provider answers when it is asked for a snapshot. -/
abbrev Response := Except Error (Option Snapshot)

/-- Publish what a provider answers; whether a snapshot was installed. -/
def refresh (c : SnapshotCache) : Response → Except Error Bool × SnapshotCache × List Event
  | .error e => (.error e, c, [])
  | .ok none => (.ok false, c, [])
  | .ok (some s) =>
    let (installed, c, events) := c.publish s
    (.ok installed, c, events ++ if installed then [.snapshotRefreshed s.upperBound] else [])

/-- One round of a background run: what the provider answers, and whether the run is told to stop
meanwhile. -/
structure Round where
  response : Response
  stops : Bool := false

/-- Refresh in the background until told to stop. The rounds that are left, whether the run was told
to stop, the cache and the events. Errors are reported and the run goes on. -/
def background (c : SnapshotCache) : (stopped : Bool) → List Round →
    List Round × Bool × SnapshotCache × List Event
  | true, rounds => (rounds, true, c, [])
  | false, [] => ([], false, c, [])
  | false, r :: rounds =>
    let (result, c, events) := c.refresh r.response
    let failure := match result with
      | .error e => [.refreshFailed e]
      | .ok _ => []
    let (rest, stopped, c, more) := background c r.stops rounds
    (rest, stopped, c, events ++ failure ++ more)

end SnapshotCache

end CellStore
