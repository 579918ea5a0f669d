import CellStore.Cell
import CellStore.Decision
import CellStore.Error

/-! # Cell filters

A cell filter judges the cells of one scan in the order of the store. It answers
a decision or an error and goes on from the state it is then in.
-/
namespace CellStore

/-- What a filter answers to a cell. -/
abbrev Verdict := Except Error Decision

class CellFilter (φ : Type) where
  /-- The answer to a cell, and the filter that judges the next one. -/
  step : φ → Cell → Verdict × φ

namespace CellFilter

variable {φ : Type} [CellFilter φ]

/-- The answers to cells in a row, and the filter after them. An error does not end the run. -/
def feed (f : φ) : List Cell → List Verdict × φ
  | [] => ([], f)
  | c :: cs =>
    let (v, f) := step f c
    let (vs, f) := feed f cs
    (v :: vs, f)

@[simp] theorem feed_nil (f : φ) : feed f [] = ([], f) := rfl

theorem feed_cons (f : φ) (c : Cell) (cs : List Cell) :
    feed f (c :: cs) = ((step f c).1 :: (feed (step f c).2 cs).1, (feed (step f c).2 cs).2) := rfl

theorem feed_append (f : φ) (cs ds : List Cell) :
    feed f (cs ++ ds) =
      ((feed f cs).1 ++ (feed (feed f cs).2 ds).1, (feed (feed f cs).2 ds).2) := by
  induction cs generalizing f with
  | nil => rfl
  | cons c cs ih => simp [feed_cons, ih]

@[simp] theorem feed_length (f : φ) (cs : List Cell) : (feed f cs).1.length = cs.length := by
  induction cs generalizing f with
  | nil => rfl
  | cons c cs ih => simp [feed_cons, ih]

/-- Without a filter every cell is accepted. -/
instance : CellFilter (Option φ) where
  step
    | none, _ => (.ok .accept, none)
    | some f, c => ((step f c).1, some (step f c).2)

end CellFilter

end CellStore
