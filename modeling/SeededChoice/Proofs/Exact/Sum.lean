import SeededChoice.Proofs.Exact.Arithmetic
import SeededChoice.Proofs.Scalar.Unrounded

/-!
# Exact sums

Finite numbers are added without rounding, so their pairwise sum and their running sums are the sums
of the list and of its initial parts.
-/

namespace SeededChoice.Exact

variable [Exponential]

theorem addsExactly_finite : Scalar.AddsExactly finite fun _ => True where
  zero := rfl
  add _ := rfl
  part _ := trivial

/-- The pairwise sum of finite numbers is their sum. -/
@[simp] theorem sum_finite (xs : List ℝ) : Scalar.sum (xs.map finite) = finite xs.sum :=
  addsExactly_finite.sum trivial

/-- A running sum of finite numbers is the sum of an initial part. -/
theorem getElem?_runningSums (xs : List ℝ) {i : Nat} (inside : i < xs.length) :
    (Scalar.runningSums (xs.map finite))[i]? = some (finite (xs.take (i + 1)).sum) :=
  addsExactly_finite.getElem?_runningSums inside trivial

theorem countsTo (most : Nat) : Scalar.CountsTo Exact most where
  adds := {
    zero := congrArg finite Nat.cast_zero
    add := fun _ => congrArg finite (Nat.cast_add _ _).symm
    part := fun whole => (Nat.le_add_right _ _).trans whole }
  ofInt? _ := rfl
  finite _ := rfl
  natural _ := (finite_lt _ 0).not.mpr (not_lt.mpr (Nat.cast_nonneg _))
  positive positive _ := decide_eq_false (Nat.cast_ne_zero.mpr positive.ne')

end SeededChoice.Exact
