/-! # Filter decisions

A decision says what a scan does with one cell. They are ordered by strictness,
and filters that judge one cell together settle on the strictest decision.
-/
namespace CellStore

inductive Decision where
  | accept
  | skip
  /-- Skip the cell and every later version of its column. -/
  | skipColumn
deriving DecidableEq, Repr

namespace Decision

def strictness : Decision → Nat
  | accept => 0
  | skip => 1
  | skipColumn => 2

/-- The stricter of two decisions. -/
def strictest (a b : Decision) : Decision := if a.strictness < b.strictness then b else a

def isAccept (d : Decision) : Bool := d == accept

theorem strictest_strictness (a b : Decision) :
    (strictest a b).strictness = max a.strictness b.strictness := by
  cases a <;> cases b <;> rfl

theorem strictest_comm (a b : Decision) : strictest a b = strictest b a := by
  cases a <;> cases b <;> rfl

theorem strictest_assoc (a b c : Decision) :
    strictest (strictest a b) c = strictest a (strictest b c) := by
  cases a <;> cases b <;> cases c <;> rfl

@[simp] theorem accept_strictest (d : Decision) : strictest accept d = d := by
  cases d <;> rfl

@[simp] theorem strictest_accept (d : Decision) : strictest d accept = d := by
  cases d <;> rfl

end Decision

end CellStore
