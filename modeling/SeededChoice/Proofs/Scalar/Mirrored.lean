import Mathlib.Data.List.Forall2
import SeededChoice.Proofs.Scalar.Ordered

/-!
# Mirrored scalars

Arithmetic looks the same from both sides of zero: negation is exact and turns order around. Only
the sign of a zero may get lost on the way, since the negation of a difference that vanishes is not
the difference of the negations.
-/

namespace SeededChoice

/-- A scalar in which opposed numbers, the negations of each other up to the sign of a zero, lead
to opposed differences, and to the same products up to that sign. -/
class MirroredScalar (α : Type) [Scalar α] where
  Opposed : α → α → Prop
  opposed_neg (x : α) : Opposed x (-x)
  opposed_symm {x u : α} : Opposed x u → Opposed u x
  opposed_zero : Opposed (0 : α) 0
  opposed_nan : Opposed (Scalar.nan : α) Scalar.nan
  opposed_ofInt (n : Int) : Option.Rel Opposed (Scalar.ofInt? n) (Scalar.ofInt? (-n))
  isFinite_eq {x u : α} : Opposed x u → Scalar.isFinite x = Scalar.isFinite u
  isNaN_eq {x u : α} : Opposed x u → Scalar.isNaN x = Scalar.isNaN u
  beq_zero_eq {x u : α} : Opposed x u → (x == 0) = (u == 0)
  lt_iff {x y u v : α} : Opposed x u → Opposed y v → (x < y ↔ v < u)
  opposed_sub {x y u v : α} : Opposed x u → Opposed y v → Opposed (x - y) (u - v)
  /-- Only zeros can differ as products, and only by their sign. -/
  mul_eq {x y u v : α} : Opposed x u → Opposed y v →
    x * y = u * v ∨ (x * y = 0 ∨ x * y = -0) ∧ (u * v = 0 ∨ u * v = -0)

namespace Scalar

open MirroredScalar

variable {α : Type} [Scalar α] [MirroredScalar α] {x y u v : α} {xs us : List α}

theorem isPositiveInfinity_opposed (opposed : Opposed x u) :
    isPositiveInfinity x = isNegativeInfinity u := by
  simp only [isPositiveInfinity, isNegativeInfinity, isFinite_eq opposed,
    lt_iff opposed_zero opposed]

theorem isNegativeInfinity_opposed (opposed : Opposed x u) :
    isNegativeInfinity x = isPositiveInfinity u :=
  (isPositiveInfinity_opposed (opposed_symm opposed)).symm

/-- The largest of some numbers is opposed to the smallest of their opposites. -/
theorem largest_opposed (firsts : Opposed x u) (rests : List.Forall₂ Opposed xs us) :
    Opposed (largest x xs) (smallest u us) := by
  induction rests generalizing x u with
  | nil => exact firsts
  | @cons y v ys vs opposed _ ih =>
    show Opposed (largest (if x < y then y else x) ys) (smallest (if v < u then v else u) vs)
    apply ih
    rw [← if_congr (lt_iff firsts opposed) rfl rfl]
    split
    · exact opposed
    · exact firsts

theorem smallest_opposed (firsts : Opposed x u) (rests : List.Forall₂ Opposed xs us) :
    Opposed (smallest x xs) (largest u us) := by
  have turned : List.Forall₂ Opposed us xs := .flip (rests.imp fun _ _ => opposed_symm)
  exact opposed_symm (largest_opposed (opposed_symm firsts) turned)

/-- An exponential that does not see the sign of a zero is the same for opposed factors. -/
theorem exp_mul_opposed (unsigned : exp (-0 : α) = exp 0) (first : Opposed x u)
    (second : Opposed y v) : exp (x * y) = exp (u * v) := by
  rcases mul_eq first second with same | ⟨left, right⟩
  · rw [same]
  · rcases left with left | left <;> rcases right with right | right <;>
      simp only [left, right, unsigned]

/-- Of two opposed numbers other than zero, one is positive. -/
theorem pos_opposed_iff [ComparableScalar α] [DefiniteScalar α] (opposed : Opposed x u)
    (finite : isFinite x = true) (nonzero : (x == 0) = false) : 0 < u ↔ ¬ 0 < x := by
  rw [← lt_iff opposed opposed_zero]
  constructor
  · exact fun negative => not_lt_of_le (ComparableScalar.le_of_lt negative)
  · intro small
    by_contra least
    have natural := OrderedScalar.le_of_not_lt OrderedScalar.isFinite_zero finite least
    exact Bool.false_ne_true (nonzero.symm.trans (DefiniteScalar.beq_zero natural small))

end Scalar

end SeededChoice
