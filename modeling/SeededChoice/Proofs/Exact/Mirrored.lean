import SeededChoice.Proofs.Exact.Arithmetic
import SeededChoice.Proofs.Scalar.Mirrored

/-!
# Exact numbers are mirrored

Without rounding and without a sign on zero, opposed numbers are the negations of each other.
-/

namespace SeededChoice

namespace Exact

theorem neg_involutive : Function.Involutive neg := by
  intro v
  cases v <;> simp [neg]

theorem add_opposites (v w : Exact) : add (neg v) (neg w) = neg (add v w) := by
  cases v <;> cases w <;> simp [neg, add, add_comm]
  split <;> rfl

theorem scaleInfinity_opposites (negative : Bool) (x : ℝ) :
    scaleInfinity (!negative) (-x) = scaleInfinity negative x := by
  unfold scaleInfinity
  rcases lt_trichotomy x 0 with less | rfl | more
  · simp [less, less.not_gt]
  · simp
  · simp [more, more.not_gt]

theorem mul_opposites (v w : Exact) : mul (neg v) (neg w) = mul v w := by
  cases v <;> cases w <;> simp [neg, mul, scaleInfinity_opposites]

end Exact

open Exact

noncomputable instance [Exponential] : MirroredScalar Exact where
  Opposed v w := w = neg v
  opposed_neg _ := rfl
  opposed_symm {v w} opposed := by
    subst opposed
    exact (neg_involutive v).symm
  opposed_zero := congrArg finite neg_zero.symm
  opposed_nan := rfl
  opposed_ofInt n := .some (congrArg finite (Int.cast_neg n))
  isFinite_eq {v w} opposed := by
    subst opposed
    cases v <;> rfl
  isNaN_eq {v w} opposed := by
    subst opposed
    cases v with
    | nan => rfl
    | infinite negative => cases negative <;> rfl
    | finite x => exact (isNaN_finite x).trans (isNaN_finite (-x)).symm
  beq_zero_eq {v w} opposed := by
    subst opposed
    cases v with
    | nan | infinite => rfl
    | finite x => simp [neg, zero_eq]
  lt_iff {v w u z} first second := by
    subst first second
    show lt v w = true ↔ lt (neg w) (neg v) = true
    cases v <;> cases w <;> simp [neg, lt, and_comm]
  opposed_sub {v w u z} first second := by
    subst first second
    exact add_opposites v (neg w)
  mul_eq {v w u z} first second := by
    subst first second
    exact .inl (mul_opposites v w).symm

end SeededChoice
