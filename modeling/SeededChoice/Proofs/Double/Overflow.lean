import SeededChoice.Proofs.Double.Operations

/-!
# Doubles past the greatest

Where a result is too large, it becomes an infinity, which is greater than every finite double. So
sums, quotients and products of numbers that are not negative stay so, unless zero is multiplied by
an infinity.
-/

namespace SeededChoice.Double

open Float.Model Float.Model.UnpackedFloat

/-! ### Natural numbers and the infinity -/

theorem natural_ofMantissa (m : Nat) (e : Int) : Natural (ofMantissa m e) := by
  unfold ofMantissa
  split
  · exact .zero .positive
  · exact .finite _

theorem natural_rounded (m : Nat) (e : Int) (accuracy : Accuracy) :
    Natural (roundWithAccuracy Format.binary64 .positive m e accuracy) := by
  rw [roundWithAccuracy_eq]
  exact natural_ofMantissa _ _

section
variable {u v : UnpackedFloat}

/-- Packing keeps a sign, whether or not the number is too large for a double. -/
theorem Natural.packed (natural : Natural u) : Natural (Float.Model.pack u).unpack := by
  cases natural with
  | zero s => cases s <;> exact .zero _
  | infinity => exact .infinity
  | @finite m e positive =>
    by_cases high : e ≤ 971
    · exact (unpack_pack_natural positive high).1
    · rw [unpack_pack_overflow positive (by omega)]
      exact .infinity

theorem Natural.value_nonneg (natural : Natural u) : 0 ≤ value u := by
  cases natural with
  | zero s => exact le_refl _
  | infinity => exact le_refl _
  | @finite m e positive =>
    rw [value, Sign.apply]
    positivity

theorem Natural.eq_infinity (natural : Natural u) (infinite : u.isFinite = false) :
    u = .infinity .positive := by
  cases natural with
  | zero s => cases infinite
  | finite positive => cases infinite
  | infinity => rfl

theorem Reduced.natural (reduced : Reduced u) (least : 0 ≤ value u) : Natural u := by
  rcases reduced with s | @⟨_ | _, m, e, canonical, high⟩
  · exact .zero s
  · have positive := canonical.pos
    have below : value (.finite .negative m e positive) < 0 := by
      rw [value, Sign.apply, Int.cast_neg, neg_mul, neg_lt_zero]
      positivity
    exact absurd least (not_le.mpr below)
  · exact .finite canonical.pos

/-- The difference from a lesser double. -/
theorem sub_natural (left : Reduced u) (right : Reduced v) (less : value v < value u) :
    Natural (UnpackedFloat.sub Format.binary64 u v) := by
  cases left with
  | zero s =>
    cases right with
    | zero t => exact absurd less (lt_irrefl _)
    | finite t canonical high =>
      apply (Reduced.finite t canonical high).neg.natural
      rw [value_neg]
      exact (neg_pos.mpr less).le
  | @finite s m e canonical high =>
    cases right with
    | zero t => exact (Reduced.finite s canonical high).natural less.le
    | @finite t n f other low =>
      rw [value_units s canonical.pos (min_le_left e f), value_units t other.pos (min_le_right e f),
        mul_lt_mul_iff_left₀ (by positivity), Int.cast_lt] at less
      simp only [UnpackedFloat.sub, decreaseExponent, Nat.shiftLeft_eq]
      rw [UnpackedFloat.normalize, Int.compare_eq_gt.mpr (Int.sub_pos.mpr less)]
      exact natural_rounded _ _ _

theorem div_natural (left : Natural u) (right : Reduced v) (positive : 0 < value v) :
    Natural (UnpackedFloat.div Format.binary64 u v) := by
  cases right.natural positive.le with
  | zero s => exact absurd positive (lt_irrefl _)
  | infinity => cases right
  | finite divisor =>
    cases left with
    | zero s => exact .zero _
    | infinity => exact .infinity
    | finite numerator => exact natural_rounded _ _ _

/-- A product is natural, unless it is undefined. -/
theorem mul_natural (left : Natural u) (finite : u.isFinite = true) (right : Natural v)
    (defined : v.isFinite = true ∨ 0 < value u) :
    Natural (UnpackedFloat.mul Format.binary64 u v) := by
  cases left with
  | infinity => cases finite
  | zero s =>
    cases right with
    | zero t => exact .zero _
    | finite positive => exact .zero _
    | infinity =>
      rcases defined with bounded | positive
      · cases bounded
      · exact absurd positive (lt_irrefl _)
  | finite positive =>
    cases right with
    | zero t => exact .zero _
    | infinity => exact .infinity
    | finite other => exact natural_rounded _ _ _

theorem add_infinity (reduced : Reduced u) :
    UnpackedFloat.add Format.binary64 u (.infinity .positive) = .infinity .positive := by
  cases reduced <;> rfl

theorem add_notANumber (u : UnpackedFloat) :
    UnpackedFloat.add Format.binary64 u .notANumber = .notANumber := by
  cases u <;> rfl

theorem infinity_sub (reduced : Reduced u) :
    UnpackedFloat.sub Format.binary64 (.infinity .positive) u = .infinity .positive := by
  cases reduced <;> rfl

theorem div_infinity (reduced : Reduced u) :
    ∃ s, UnpackedFloat.div Format.binary64 u (.infinity .positive) = .zero s := by
  cases reduced <;> exact ⟨_, rfl⟩

theorem mul_infinity (reduced : Reduced u) (positive : 0 < value u) :
    UnpackedFloat.mul Format.binary64 u (.infinity .positive) = .infinity .positive := by
  cases reduced.natural positive.le with
  | zero s => exact absurd positive (lt_irrefl _)
  | infinity => cases reduced
  | finite factor => rfl

theorem mul_notANumber (u : UnpackedFloat) :
    UnpackedFloat.mul Format.binary64 u .notANumber = .notANumber := by
  cases u <;> rfl

theorem infinity_div (reduced : Reduced u) (positive : 0 < value u) :
    UnpackedFloat.div Format.binary64 (.infinity .positive) u = .infinity .positive := by
  cases reduced.natural positive.le with
  | zero s => exact absurd positive (lt_irrefl _)
  | infinity => cases reduced
  | finite divisor => rfl

end

/-! ### Doubles -/

section
variable {x y : Float}

theorem isNaN_of_unpack (undefined : x.toModel.unpack = .notANumber) :
    Scalar.isNaN x = true := by
  have other : (x == x) = false := by
    show (x.toModel.unpack.compare x.toModel.unpack == some .eq) = false
    rw [undefined]
    rfl
  rw [Scalar.isNaN, other]
  rfl

/-- A quotient by a number of at least one is too large only where the dividend is. -/
theorem isFinite_div (natural : Natural x.toModel.unpack)
    (finite : y.toModel.unpack.isFinite = true) (large : 1 ≤ value y.toModel.unpack) :
    (x / y).toModel.unpack.isFinite = x.toModel.unpack.isFinite := by
  have quotient : (x / y).toModel.unpack = (Float.Model.pack (UnpackedFloat.div Format.binary64
    x.toModel.unpack y.toModel.unpack)).unpack := rfl
  have positive := zero_lt_one.trans_le large
  have divisor := reduced_of_isFinite finite
  cases dividend : x.toModel.unpack.isFinite with
  | true =>
    have numerator := reduced_of_isFinite dividend
    have small : |value x.toModel.unpack / value y.toModel.unpack| ≤ greatest := by
      rw [abs_div, abs_of_pos positive]
      exact (div_le_self (abs_nonneg _) large).trans numerator.abs_le_greatest
    exact ((div_nearest numerator divisor positive.ne' small).unpacked quotient).1.isFinite
  | false =>
    rw [quotient, natural.eq_infinity dividend, infinity_div divisor positive]
    rfl

theorem eq_infinity (natural : 0 ≤ x) (infinite : Scalar.isFinite x = false) :
    x.toModel.unpack = .infinity .positive :=
  ((natural_iff x).mp natural).eq_infinity infinite

/-- What is left of a number that is divided by an infinity. -/
theorem div_infinite (finite : Scalar.isFinite x = true)
    (infinite : y.toModel.unpack = .infinity .positive) :
    Scalar.isFinite (x / y) = true ∧ HasValue.value (x / y) = 0 := by
  have quotient : (x / y).toModel.unpack = (Float.Model.pack (UnpackedFloat.div Format.binary64
    x.toModel.unpack y.toModel.unpack)).unpack := rfl
  obtain ⟨s, zero⟩ := div_infinity (reduced_of_isFinite finite)
  have kept : (x / y).toModel.unpack = .zero s := by
    rw [quotient, infinite, zero, (Reduced.zero s).unpack_pack]
  have isFinite : (x / y).toModel.unpack.isFinite = true := by rw [kept]; rfl
  have value : value (x / y).toModel.unpack = 0 := by rw [kept]; rfl
  exact ⟨isFinite, value⟩

/-- Adding a natural double, finite or not, to a finite one does not lower it. -/
theorem le_add_natural (finite : x.toModel.unpack.isFinite = true)
    (natural : Natural y.toModel.unpack) : x ≤ x + y := by
  have reduced := reduced_of_isFinite finite
  have sum : (x + y).toModel.unpack = (Float.Model.pack (UnpackedFloat.add Format.binary64
    x.toModel.unpack y.toModel.unpack)).unpack := rfl
  rcases le_or_gt 0 (value x.toModel.unpack) with least | negative
  · exact OrderedScalar.le_add_right ((natural_iff x).mpr (reduced.natural least))
      ((natural_iff y).mpr natural)
  cases bounded : y.toModel.unpack.isFinite with
  | true =>
    -- The exact sum lies between two doubles, so it is rounded to a finite one.
    have other := reduced_of_isFinite bounded
    have above := natural.value_nonneg
    have small : |value x.toModel.unpack + value y.toModel.unpack| ≤ greatest := by
      have low := (abs_le.mp reduced.abs_le_greatest).1
      have high := (abs_le.mp other.abs_le_greatest).2
      rw [abs_le]
      constructor <;> linarith
    have rounded := (add_nearest reduced other small).unpacked sum
    rw [le_iff_value finite rounded.1.isFinite]
    exact rounded.isNearest.ge ⟨x, finite, rfl⟩ (le_add_of_nonneg_right above)
  | false =>
    have kept : (Float.Model.pack (.infinity .positive)).unpack = .infinity .positive := rfl
    rw [le_iff, sum, natural.eq_infinity bounded, add_infinity reduced, kept, le_iff_rank]
    generalize x.toModel.unpack = u at *
    rcases reduced with s | ⟨_ | _, canonical, -⟩ <;> simp [rank, Prod.Lex.le_iff]

/-! ### No finite number -/

/-- An infinity, or no number at all. -/
def Exceeds (x : Float) : Prop :=
  x.toModel.unpack = .infinity .positive ∨ x.toModel.unpack = .notANumber

theorem Exceeds.isFinite_eq (exceeds : Exceeds x) : Scalar.isFinite x = false := by
  show x.toModel.unpack.isFinite = false
  rcases exceeds with infinite | undefined
  · rw [infinite]
    rfl
  · rw [undefined]
    rfl

theorem Exceeds.not_lt (exceeds : Exceeds x) (finite : Scalar.isFinite y = true) : ¬ x < y := by
  intro less
  rcases exceeds with infinite | undefined
  · have natural : Zero.zero ≤ x := (natural_iff x).mpr (infinite ▸ .infinity)
    have bounded := NearestScalar.isFinite_between OrderedScalar.isFinite_zero finite natural
      (ComparableScalar.le_of_lt less)
    exact Bool.false_ne_true ((Exceeds.isFinite_eq (.inl infinite)).symm.trans bounded)
  · rw [lt_iff, lt_iff_rank] at less
    exact less.1 undefined

/-- A product with what is no finite number is none either. -/
theorem Exceeds.mul (exceeds : Exceeds y) (finite : Scalar.isFinite x = true)
    (positive : 0 < HasValue.value x) : Exceeds (x * y) := by
  have product : (x * y).toModel.unpack = (Float.Model.pack (UnpackedFloat.mul Format.binary64
    x.toModel.unpack y.toModel.unpack)).unpack := rfl
  rcases exceeds with infinite | undefined
  · left
    rw [product, infinite, mul_infinity (reduced_of_isFinite finite) positive]
    rfl
  · right
    rw [product, undefined, mul_notANumber]
    rfl

/-- An infinity shared among anything is none, or undefined. -/
theorem exceeds_div (infinite : x.toModel.unpack = .infinity .positive) (natural : Zero.zero ≤ y)
    (massive : ¬ y ≤ Zero.zero) : Exceeds (x / y) := by
  have quotient : (x / y).toModel.unpack = (Float.Model.pack (UnpackedFloat.div Format.binary64
    x.toModel.unpack y.toModel.unpack)).unpack := rfl
  cases bounded : Scalar.isFinite y with
  | true =>
    left
    have positive : 0 < value y.toModel.unpack := by
      by_contra low
      exact massive ((NearestScalar.le_iff bounded OrderedScalar.isFinite_zero).mpr
        ((not_lt.mp low).trans_eq NearestScalar.value_zero.symm))
    rw [quotient, infinite, infinity_div (reduced_of_isFinite bounded) positive]
    rfl
  | false =>
    right
    rw [quotient, infinite, eq_infinity natural bounded]
    rfl

theorem sub_finite (infinite : x.toModel.unpack = .infinity .positive)
    (finite : Scalar.isFinite y = true) : (x - y).toModel.unpack = .infinity .positive := by
  have difference : (x - y).toModel.unpack = (Float.Model.pack (UnpackedFloat.sub Format.binary64
    x.toModel.unpack y.toModel.unpack)).unpack := rfl
  rw [difference, infinite, infinity_sub (reduced_of_isFinite finite)]
  rfl

end

end SeededChoice.Double
