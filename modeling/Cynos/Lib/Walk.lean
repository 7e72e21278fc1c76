import Mathlib.Data.List.Basic
import Mathlib.Control.Basic

/-! Chains of branching steps: what a chain reaches from a start, and the search for the
first thing that it reaches. -/
namespace Cynos.Lib.Walk

section Reached

variable {σ α : Type*} (next : σ → α → List α)

/-- What the steps reach, in the order of a depth-first walk. -/
def reached : List σ → α → List α
  | [], a => [a]
  | step :: steps, a => (next step a).flatMap (reached steps)

/-- Every step of the chain is fit for everything it is taken from. -/
def Fit (fit : σ → α → Prop) : List σ → α → Prop
  | [], _ => True
  | step :: steps, a => fit step a ∧ ∀ b ∈ next step a, Fit fit steps b

theorem reached_append (steps rest : List σ) (a : α) :
    reached next (steps ++ rest) a = (reached next steps a).flatMap (reached next rest) := by
  induction steps generalizing a with
  | nil => simp [reached]
  | cons step steps ih =>
    simp only [List.cons_append, reached, List.flatMap_assoc]
    exact congrArg (fun reach => (next step a).flatMap reach) (funext ih)

/-- The last step is taken from everything that the steps before it reach. -/
theorem reached_concat (steps : List σ) (step : σ) (a : α) :
    reached next (steps ++ [step]) a = (reached next steps a).flatMap (next step) := by
  rw [reached_append]
  congr 1
  funext b
  simp [reached]

variable {next} {fit : σ → α → Prop}

theorem fit_append {steps rest : List σ} {a : α} :
    Fit next fit (steps ++ rest) a ↔
      Fit next fit steps a ∧ ∀ b ∈ reached next steps a, Fit next fit rest b := by
  induction steps generalizing a with
  | nil => simp [Fit, reached]
  | cons step steps ih =>
    simp only [List.cons_append, Fit, reached, ih, List.mem_flatMap]
    grind

theorem fit_concat {steps : List σ} {step : σ} {a : α} :
    Fit next fit (steps ++ [step]) a ↔
      Fit next fit steps a ∧ ∀ b ∈ reached next steps a, fit step b := by
  simp [fit_append, Fit]

end Reached

section Search

variable {α β : Type} {items : List α}

/-- A search that fails nowhere finds what the plain search finds. -/
theorem findSomeM?_eq {find : α → Option (Option β)} {found : α → Option β}
    (h : ∀ a ∈ items, find a = some (found a)) :
    items.findSomeM? find = some (items.findSome? found) := by
  induction items with
  | nil => rfl
  | cons a items ih =>
    have hrest := ih fun b hb => h b (List.mem_cons_of_mem a hb)
    rw [List.findSomeM?, h a List.mem_cons_self, List.findSome?_cons, hrest]
    cases found a <;> rfl

/-- Depth first: the first thing that the branches reach is the first one of the first
branch that reaches any. -/
theorem findSomeM?_head? {find : α → Option (Option β)} {reach : α → List β}
    (h : ∀ a ∈ items, find a = some (reach a).head?) :
    items.findSomeM? find = some (items.flatMap reach).head? := by
  rw [findSomeM?_eq h, List.head?_flatMap]

/-- A search that passes over some items is one among the others. -/
theorem findSomeM?_filter {find : α → Option (Option β)} {keep : α → Bool} :
    (items.findSomeM? fun a => if keep a then find a else some none) =
      (items.filter keep).findSomeM? find := by
  induction items with
  | nil => rfl
  | cons a items ih =>
    by_cases h : keep a = true
    · rw [List.filter_cons_of_pos h, List.findSomeM?, List.findSomeM?, if_pos h, ih]
    · rw [List.filter_cons_of_neg h, ← ih, List.findSomeM?, if_neg h]
      rfl

/-- Level by level, all branches together. -/
theorem mapM_eq_some {step : α → Option (List β)} {reach : α → List β} {fit : α → Prop}
    (hstep : ∀ a results, step a = some results ↔ fit a ∧ results = reach a)
    {results : List (List β)} :
    items.mapM step = some results ↔ (∀ a ∈ items, fit a) ∧ results = items.map reach := by
  induction items generalizing results with
  | nil => simp [eq_comm]
  | cons a items ih =>
    simp only [List.mapM_cons, Option.bind_eq_bind, Option.pure_def, Option.bind_eq_some_iff,
      hstep, ih, Option.some.injEq, List.forall_mem_cons, List.map_cons]
    grind

end Search

end Cynos.Lib.Walk
