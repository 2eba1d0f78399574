import Mathlib.Data.EReal.Basic
import SeededChoice.Proofs.Exact.Arithmetic
import SeededChoice.Proofs.Scalar.Extremes

/-!
# Extended real numbers

An exact value that is a number, finite or not, is an extended real number, and is ordered as one.
-/

namespace SeededChoice.Exact

noncomputable def ofExtended : EReal → Exact
  | ⊥ => infinite true
  | ⊤ => infinite false
  | (x : ℝ) => finite x

@[simp] theorem ofExtended_bot : ofExtended ⊥ = infinite true := rfl

@[simp] theorem ofExtended_top : ofExtended ⊤ = infinite false := rfl

@[simp] theorem ofExtended_coe (x : ℝ) : ofExtended x = finite x := rfl

variable [Exponential] (x y : EReal)

theorem ofExtended_lt : ofExtended x < ofExtended y ↔ x < y := by
  show lt (ofExtended x) (ofExtended y) = true ↔ x < y
  induction x <;> induction y <;> simp [lt]

theorem isNaN_ofExtended : Scalar.isNaN (ofExtended x) = false := by
  induction x with
  | bot | top => rfl
  | coe x => exact isNaN_finite x

theorem isPositiveInfinity_ofExtended :
    Scalar.isPositiveInfinity (ofExtended x) = decide (x = ⊤) := by
  have above := ofExtended_lt 0 x
  rw [← EReal.coe_zero, ofExtended_coe, ← zero_eq] at above
  simp only [Scalar.isPositiveInfinity, above]
  induction x <;> simp [Scalar.isFinite]

theorem isNegativeInfinity_ofExtended :
    Scalar.isNegativeInfinity (ofExtended x) = decide (x = ⊥) := by
  have below := ofExtended_lt x 0
  rw [← EReal.coe_zero, ofExtended_coe, ← zero_eq] at below
  simp only [Scalar.isNegativeInfinity, below]
  induction x <;> simp [Scalar.isFinite]

/-! ### Extremes -/

theorem largest_ofExtended (rest : List EReal) :
    Scalar.largest (ofExtended x) (rest.map ofExtended) = ofExtended (rest.foldl max x) :=
  Scalar.largest_map ofExtended_lt x rest

theorem smallest_ofExtended (rest : List EReal) :
    Scalar.smallest (ofExtended x) (rest.map ofExtended) = ofExtended (rest.foldl min x) :=
  Scalar.smallest_map ofExtended_lt x rest

end SeededChoice.Exact
