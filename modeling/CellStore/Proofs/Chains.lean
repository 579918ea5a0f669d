import Mathlib.Data.Option.NAry
import CellStore.Filter
import CellStore.Proofs.Streams

/-! # Filters put together in any way

A chain may have chains among its members, and what counts are the filters at the bottom. Up to the
first error the chain settles on the strictest of what these would answer by themselves, and the
first error comes with the first cell to which one of them answers with an error. So it makes no
difference in which order filters are put together, and in which groups. After an error it does:
the members that come behind the one that failed have not judged the cell.
-/
namespace CellStore

namespace Verdict

/-- What filters settle on, given the answers that they have by themselves: the strictest of the
decisions, if all of them decide. -/
def settle (answers : List Verdict) : Option Decision :=
  answers.foldr (fun answer rest => Option.map₂ Decision.strictest answer.toOption rest)
    (some .accept)

variable {answers answers' : List Verdict}

theorem settle_cons (answer : Verdict) (answers : List Verdict) : settle (answer :: answers) =
    Option.map₂ Decision.strictest answer.toOption (settle answers) := rfl

theorem settle_singleton (answer : Verdict) : settle [answer] = answer.toOption := by
  rw [settle_cons]
  cases answer with
  | error e => rfl
  | ok d => exact congrArg some d.strictest_accept

theorem settle_append (answers answers' : List Verdict) : settle (answers ++ answers') =
    Option.map₂ Decision.strictest (settle answers) (settle answers') := by
  induction answers with
  | nil =>
    change settle answers' = Option.map₂ Decision.strictest (some .accept) (settle answers')
    cases settle answers' with
    | none => rfl
    | some d => exact congrArg some d.accept_strictest.symm
  | cons answer answers ih =>
    rw [List.cons_append, settle_cons, settle_cons, ih, Option.map₂_assoc Decision.strictest_assoc]

/-- The order of the answers does not matter. -/
theorem settle_perm (h : answers.Perm answers') : settle answers = settle answers' := by
  induction h with
  | nil => rfl
  | cons answer _ ih => rw [settle_cons, settle_cons, ih]
  | swap a b rest =>
    have hleft (x y z : Decision) : x.strictest (y.strictest z) = y.strictest (x.strictest z) := by
      rw [← Decision.strictest_assoc, Decision.strictest_comm x y, Decision.strictest_assoc]
    rw [settle_cons, settle_cons, settle_cons, settle_cons, Option.map₂_left_comm hleft]
  | trans _ _ ih ih' => exact ih.trans ih'

end Verdict

/-- What a filter answers to a cell once it has judged some others. -/
def CellFilter.answer {φ : Type} [CellFilter φ] (f : φ) (before : List Cell) (c : Cell) : Verdict :=
  (step (feed f before).2 c).1

namespace Filter

variable {f g : Filter} {fs : List Filter} {c : Cell}

/-! ### The parts of a chain -/

mutual

/-- The filters that a filter is put together from, which are no chains. -/
def parts : Filter → List Filter
  | visibility v => [visibility v]
  | retention gate inner => [retention gate inner]
  | chain members => partsAll members
  | predicate keep => [predicate keep]
  | custom respond seen => [custom respond seen]

def partsAll : List Filter → List Filter
  | [] => []
  | f :: fs => parts f ++ partsAll fs

end

theorem parts_chain (members : List Filter) : (chain members).parts = members.flatMap parts := by
  rw [parts]
  induction members with
  | nil => rfl
  | cons f fs ih => rw [partsAll, ih, List.flatMap_cons]

theorem parts_combine (first : Filter) (second : Option Filter) :
    (first.combine second).parts = first.parts ++ second.toList.flatMap parts := by
  cases second with
  | none => simp [combine]
  | some second => simp [combine, parts_chain]

mutual

/-- A filter answers what its parts settle on. -/
theorem step_settles (c : Cell) : ∀ f : Filter,
    (f.step c).1.toOption = Verdict.settle (f.parts.map fun p => (p.step c).1)
  | visibility _ | retention _ _ | predicate _ | custom _ _ => (Verdict.settle_singleton _).symm
  | chain members => stepAll_settles c members

theorem stepAll_settles (c : Cell) : ∀ fs : List Filter,
    (stepAll fs c).1.toOption = Verdict.settle ((partsAll fs).map fun p => (p.step c).1)
  | [] => rfl
  | f :: fs => by
    rw [partsAll, List.map_append, Verdict.settle_append, ← step_settles c f, ← stepAll_settles c fs,
      stepAll]
    cases f.step c with
    | mk answer f' =>
      cases answer with
      | error e => rfl
      | ok d => cases (stepAll fs c).1 <;> rfl

end

mutual

/-- While a filter decides, each of its parts goes on by itself. -/
theorem parts_step (c : Cell) : ∀ f : Filter, (f.step c).1.isOk = true →
    (f.step c).2.parts = f.parts.map fun p => (p.step c).2
  | visibility _, _ | predicate _, _ | custom _ _, _ => rfl
  | retention gate inner, _ => by
    simp only [step, parts, List.map_cons, List.map_nil]
    cases gate.rule c <;> rfl
  | chain members, h => partsAll_stepAll c members h

theorem partsAll_stepAll (c : Cell) : ∀ fs : List Filter, (stepAll fs c).1.isOk = true →
    partsAll (stepAll fs c).2 = (partsAll fs).map fun p => (p.step c).2
  | [], _ => rfl
  | f :: fs, h => by
    have hf := parts_step c f
    rw [stepAll] at h ⊢
    cases hstep : f.step c with
    | mk answer f' =>
      rw [hstep] at h hf
      cases answer with
      | error e => cases h
      | ok d =>
        have hfs : (stepAll fs c).1.isOk = true := by
          cases hrest : (stepAll fs c).1 <;> simp_all [Except.map, Except.isOk, Except.toBool]
        simp only [partsAll, List.map_append, hf rfl, partsAll_stepAll c fs hfs]

end

theorem parts_feed {before : List Cell}
    (h : ∀ answer ∈ (CellFilter.feed f before).1, answer.isOk = true) :
    (CellFilter.feed f before).2.parts = f.parts.map fun p => (CellFilter.feed p before).2 := by
  induction before generalizing f with
  | nil => simp
  | cons c cs ih =>
    obtain ⟨hc, hcs⟩ := List.forall_mem_cons.1 h
    calc (CellFilter.feed (f.step c).2 cs).2.parts
      _ = (f.step c).2.parts.map fun p => (CellFilter.feed p cs).2 := ih hcs
      _ = f.parts.map fun p => (CellFilter.feed (p.step c).2 cs).2 := by
        rw [parts_step c f hc, List.map_map]
        rfl

/-- Filters of the same parts give the same decisions up to the first error. -/
theorem feed_of_perm (hparts : f.parts.Perm g.parts) (cells : List Cell) :
    (CellFilter.feed f cells).1.takeWhile Except.isOk =
        (CellFilter.feed g cells).1.takeWhile Except.isOk ∧
      (CellFilter.feed f cells).1.findIdx? (!·.isOk) =
        (CellFilter.feed g cells).1.findIdx? (!·.isOk) := by
  induction cells generalizing f g with
  | nil => exact ⟨rfl, rfl⟩
  | cons c cs ih =>
    have hsettle : (f.step c).1.toOption = (g.step c).1.toOption := by
      rw [step_settles, step_settles, Verdict.settle_perm (hparts.map _)]
    simp only [CellFilter.feed_cons, CellFilter.step]
    cases hf : (f.step c).1 with
    | error e =>
      cases hg : (g.step c).1 with
      | error e' => exact ⟨rfl, rfl⟩
      | ok d => simp [hf, hg, Except.toOption] at hsettle
    | ok d =>
      have hg : (g.step c).1 = .ok d := by
        cases hg : (g.step c).1 with
        | error e => simp [hf, hg, Except.toOption] at hsettle
        | ok d' => simpa [hf, hg, Except.toOption] using hsettle.symm
      have hnext : (f.step c).2.parts.Perm (g.step c).2.parts := by
        rw [parts_step c f (by rw [hf]; rfl), parts_step c g (by rw [hg]; rfl)]
        exact hparts.map _
      obtain ⟨hdecisions, herror⟩ := ih hnext
      rw [hg]
      constructor
      · exact congrArg (Except.ok d :: ·) hdecisions
      · rw [List.findIdx?_cons, List.findIdx?_cons, herror]

/-- Any filter, known only by its answers. -/
def like {φ : Type} [CellFilter φ] (m : φ) : Filter :=
  .custom (fun seen c => (CellFilter.step (seen.foldr (fun d m => (CellFilter.step m d).2) m) c).1) []

theorem feed_like {φ : Type} [CellFilter φ] (m : φ) (cells : List Cell) :
    (CellFilter.feed (like m) cells).1 = (CellFilter.feed m cells).1 := by
  -- What was seen so far makes up the state that the filter would be in.
  have hseen (seen : List Cell) :
      (CellFilter.feed (custom (fun seen c =>
          (CellFilter.step (seen.foldr (fun d m => (CellFilter.step m d).2) m) c).1) seen) cells).1 =
        (CellFilter.feed (seen.foldr (fun d m => (CellFilter.step m d).2) m) cells).1 := by
    induction cells generalizing seen with
    | nil => rfl
    | cons c cs ih => exact congrArg (_ :: ·) (ih (c :: seen))
  exact hseen []

/-- Chains do not depend on order or nesting. If two filters are put together from the same parts,
be it in another order and in other groups, they give the same decisions up to the first error,
which comes at the same cell. Until then they answer what the parts, each by itself, would settle
on. The parts may be any deterministic filters. -/
theorem chains_agree (hparts : f.parts.Perm g.parts) (cells : List Cell) :
    (CellFilter.feed f cells).1.takeWhile Except.isOk =
      (CellFilter.feed g cells).1.takeWhile Except.isOk ∧
    (CellFilter.feed f cells).1.findIdx? (!·.isOk) =
      (CellFilter.feed g cells).1.findIdx? (!·.isOk) ∧
    (∀ before c after, cells = before ++ c :: after →
      (∀ answer ∈ (CellFilter.feed f before).1, answer.isOk = true) →
        (CellFilter.answer f before c).toOption =
          Verdict.settle (f.parts.map fun p => CellFilter.answer p before c)) ∧
    ∀ {φ : Type} [CellFilter φ] (m : φ), (like m).parts = [like m] ∧
      (CellFilter.feed (like m) cells).1 = (CellFilter.feed m cells).1 := by
  obtain ⟨hdecisions, herror⟩ := feed_of_perm hparts cells
  refine ⟨hdecisions, herror, fun before c _ _ hbefore => ?_, fun m => ⟨rfl, feed_like m cells⟩⟩
  calc (CellFilter.answer f before c).toOption
    _ = Verdict.settle ((CellFilter.feed f before).2.parts.map fun p => (p.step c).1) :=
      step_settles c (CellFilter.feed f before).2
    _ = Verdict.settle (f.parts.map fun p => CellFilter.answer p before c) := by
      rw [parts_feed hbefore, List.map_map]
      rfl

/-- A filter that fails at one timestamp and otherwise accepts the first two cells it is given. -/
def failingAt (timestamp : TxId) : Filter :=
  .custom (fun seen c =>
    if c.timestamp = timestamp then .error (.invalidOperation "caller filter failed")
    else .ok (if seen.length < 2 then .accept else .skip)) []

/-- A read of transaction 20 in front of a caller's chain, and the same filters the other way round
and in other groups. -/
def behindRead : Filter :=
  (visibility { view := .ofTwenty, purpose := .userScan }).combine
    (some (chain [failingAt 9, predicate fun c => c.value == [7]]))

def regrouped : Filter :=
  chain [chain [failingAt 9], chain [], chain [predicate fun c => c.value == [7],
    visibility { view := .ofTwenty, purpose := .userScan }]]

theorem chains_agree_regrouped : behindRead.parts.Perm regrouped.parts ∧
    (CellFilter.feed behindRead tiedStream).1.takeWhile Except.isOk =
      (CellFilter.feed regrouped tiedStream).1.takeWhile Except.isOk ∧
    (CellFilter.feed behindRead tiedStream).1.findIdx? (!·.isOk) =
      (CellFilter.feed regrouped tiedStream).1.findIdx? (!·.isOk) := by
  have hperm : behindRead.parts.Perm regrouped.parts := by
    rw [behindRead, regrouped, parts_combine, parts_chain]
    exact (List.Perm.swap _ _ _).trans ((List.Perm.swap _ _ _).cons _)
  obtain ⟨hdecisions, herror, -⟩ := chains_agree hperm tiedStream
  exact ⟨hperm, hdecisions, herror⟩

end Filter

end CellStore
