import SeededChoice.Scalar.Sum

/-!
# Ascending sums

Under any addition that a number which is not negative never makes less, the running sums of such
numbers are sorted, however they are rounded. Sums that overflow are among them.
-/

namespace SeededChoice

/-- A scalar whose numbers lie in a line, and where adding a number that is not negative never
makes a sum less. -/
class AscendingScalar (α : Type) [Scalar α] : Prop where
  le_trans {x y z : α} : x ≤ y → y ≤ z → x ≤ z
  lt_of_lt_of_le {x y z : α} : x < y → y ≤ z → x < z
  lt_of_le_of_lt {x y z : α} : x ≤ y → y < z → x < z
  beq_self {x : α} : 0 ≤ x → (x == x) = true
  le_add_right {x y : α} : 0 ≤ x → 0 ≤ y → x ≤ x + y

/-- Adding a zero does not make a sum more. The order of the sums does not rest on it, only what the
weight at a selected place is. -/
class NeutralScalar (α : Type) [Scalar α] : Prop where
  add_le {x y : α} : 0 ≤ x → 0 ≤ y → ¬ 0 < y → x + y ≤ x

namespace Scalar

open AscendingScalar

variable {α : Type} [Scalar α] {xs : List α} {i j : Nat}

/-- The entries up to and with a position, added from left to right. -/
def sumUpTo : List α → Nat → α
  | [], _ => 0
  | x :: rest, i => (rest.take i).foldl (· + ·) x

theorem sumUpTo_zero (inside : 0 < xs.length) : sumUpTo xs 0 = xs[0] := by
  cases xs with
  | nil => exact absurd inside (Nat.not_lt_zero 0)
  | cons x rest => rfl

theorem sumUpTo_succ (inside : i + 1 < xs.length) :
    sumUpTo xs (i + 1) = sumUpTo xs i + xs[i + 1] := by
  cases xs with
  | nil => exact absurd inside (Nat.not_lt_zero _)
  | cons x rest =>
    have part : i < rest.length := Nat.lt_of_succ_lt_succ inside
    rw [sumUpTo, sumUpTo, List.take_succ_eq_append_getElem part, List.foldl_append]
    rfl

theorem getElem?_runningSums (inside : i < xs.length) :
    (runningSums xs)[i]? = some (sumUpTo xs i) := by
  cases xs with
  | nil => exact absurd inside (Nat.not_lt_zero i)
  | cons x rest =>
    cases i with
    | zero => rfl
    | succ i => exact getElem?_runningSumsFrom x (Nat.lt_of_succ_lt_succ inside)

theorem getElem_runningSums (inside : i < (runningSums xs).length) :
    (runningSums xs)[i] = sumUpTo xs i := by
  apply Option.some.inj
  rw [← List.getElem?_eq_getElem inside, getElem?_runningSums (length_runningSums xs ▸ inside)]

section
variable [AscendingScalar α] (natural : ∀ x ∈ xs, 0 ≤ x)
include natural

theorem zero_le_sumUpTo (inside : i < xs.length) : 0 ≤ sumUpTo xs i := by
  induction i with
  | zero =>
    rw [sumUpTo_zero inside]
    exact natural _ (List.getElem_mem inside)
  | succ i ih =>
    have before := ih (Nat.lt_of_succ_lt inside)
    rw [sumUpTo_succ inside]
    exact le_trans before (le_add_right before (natural _ (List.getElem_mem inside)))

theorem sumUpTo_le_succ (inside : i + 1 < xs.length) : sumUpTo xs i ≤ sumUpTo xs (i + 1) := by
  rw [sumUpTo_succ inside]
  exact le_add_right (zero_le_sumUpTo natural (Nat.lt_of_succ_lt inside))
    (natural _ (List.getElem_mem inside))

theorem sumUpTo_le (less : i < j) (inside : j < xs.length) : sumUpTo xs i ≤ sumUpTo xs j := by
  induction less with
  | refl => exact sumUpTo_le_succ natural inside
  | step _ ih => exact le_trans (ih (Nat.lt_of_succ_lt inside)) (sumUpTo_le_succ natural inside)

theorem runningSums_sorted : (runningSums xs).Pairwise (· ≤ ·) := by
  rw [List.pairwise_iff_getElem]
  intro i j first second less
  rw [getElem_runningSums, getElem_runningSums]
  exact sumUpTo_le natural less (length_runningSums xs ▸ second)

end

end Scalar

end SeededChoice
