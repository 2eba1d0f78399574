import SeededChoice.Scalar.Sum

/-!
# Selection by inverse distribution

A draw selects the first weight whose running sum exceeds it. The running sums are searched by
bisection; a draw beyond all of them selects the last weight.
-/

namespace SeededChoice.Selection

variable {α : Type} [Scalar α]

/-- Whether a running sum is past the draw. A sum that is not a number is past every number. -/
def isPast (draw sum : α) : Bool :=
  decide (draw < sum) || (Scalar.isNaN sum && !Scalar.isNaN draw)

/-- The least position from `low` up to `high` whose sum is past the draw, or `high`, if the sums
past the draw come last. The first argument bounds the number of halvings. -/
def bisect (draw : α) (sums : Array α) : Nat → Nat → Nat → Nat
  | 0, low, _ => low
  | halvings + 1, low, high =>
    if low < high then
      let middle := low + (high - low) / 2
      if isPast draw (sums.getD middle 0) then bisect draw sums halvings low middle
      else bisect draw sums halvings (middle + 1) high
    else low

/-- The index that a draw selects among weights. -/
def select (weights : List α) (draw : α) : Nat :=
  let sums := (Scalar.runningSums weights).toArray
  min (bisect draw sums sums.size 0 sums.size) (weights.length - 1)

/-- The same where there may be no weights to select among. -/
def select? (weights : List α) (draw : α) : Option Nat :=
  if weights.isEmpty then none else some (select weights draw)

end SeededChoice.Selection
