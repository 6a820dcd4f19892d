import Mathlib

/-!
# Parallel folds

A parallel fold splits its items into pieces, folds every piece from the initial value, and combines
the partial results pairwise, with the initial value in between wherever the scheduler likes.  A
schedule is one such tree.  What the initial value, a step and a combination preserve, every
schedule preserves.
-/

/-- How a parallel fold goes over its items.  The number of a combination tells two of them
apart. -/
inductive Schedule (α : Type*)
  | identity
  | fold (items : List α)
  | reduce (round : ℕ) (left right : Schedule α)

namespace Schedule

variable {α β : Type*}

/-- The items of a schedule, from left to right. -/
def items : Schedule α → List α
  | identity => []
  | fold items => items
  | reduce _ left right => left.items ++ right.items

/-- The result of a schedule. -/
def run (empty : β) (step : β → α → β) (combine : ℕ → β → β → β) : Schedule α → β
  | identity => empty
  | fold items => items.foldl step empty
  | reduce round left right =>
    combine round (left.run empty step combine) (right.run empty step combine)

/-- A relation between items and results that holds at the start and is kept by steps and by
combinations holds of every schedule. -/
theorem run_induction {empty : β} {step : β → α → β} {combine : ℕ → β → β → β}
    {R : List α → β → Prop} (hempty : R [] empty)
    (hstep : ∀ as b a, R as b → R (as ++ [a]) (step b a))
    (hcombine : ∀ round as bs b c, R as b → R bs c → R (as ++ bs) (combine round b c))
    (schedule : Schedule α) : R schedule.items (schedule.run empty step combine) := by
  induction schedule with
  | identity => exact hempty
  | fold items =>
    change R items (items.foldl step empty)
    induction items using List.reverseRecOn with
    | nil => exact hempty
    | append_singleton as a ih =>
      rw [List.foldl_append]
      exact hstep as _ a ih
  | reduce round left right ihl ihr => exact hcombine round _ _ _ _ ihl ihr

end Schedule
