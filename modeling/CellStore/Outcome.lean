import CellStore.Event

/-! # Outcomes

An operation on a state gives a result or an error, the state after it, and what
it reports on the way. The state counts after an error too.
-/
namespace CellStore

structure Outcome (σ α : Type) where
  result : Except Error α
  state : σ
  events : List Event := []

namespace Outcome

variable {σ α β : Type}

/-- Go on with the result in the state after it; an error ends the operation. -/
def andThen (o : Outcome σ α) (next : α → σ → Outcome σ β) : Outcome σ β :=
  match o.result with
  | .error e => ⟨.error e, o.state, o.events⟩
  | .ok a => { next a o.state with events := o.events ++ (next a o.state).events }

theorem andThen_error {o : Outcome σ α} {e : Error} (h : o.result = .error e)
    (next : α → σ → Outcome σ β) : o.andThen next = ⟨.error e, o.state, o.events⟩ := by
  simp [andThen, h]

theorem andThen_ok {o : Outcome σ α} {a : α} (h : o.result = .ok a) (next : α → σ → Outcome σ β) :
    (o.andThen next).result = (next a o.state).result ∧
      (o.andThen next).state = (next a o.state).state := by
  simp [andThen, h]

end Outcome

end CellStore
