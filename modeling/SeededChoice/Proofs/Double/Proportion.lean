import SeededChoice.Proofs.Double.Error

/-!
# Proportions of doubles

A share of a finite double is finite, among however many it is shared: beyond the greatest double
their number counts as infinite. A double over itself is one, or undefined where it is infinite, and
neither makes a product with it less than the other factor.
-/

namespace SeededChoice

namespace Double

open Float.Model Float.Model.UnpackedFloat

theorem one_le_ofNat {n : Nat} (positive : 0 < n) : (One.one : Float) ≤ ofNat n := by
  by_cases short : n < 2 ^ 53
  · have whole : (1 : ℝ) ≤ n := by exact_mod_cast positive
    have rounded := ofNat_nearest (natCast_le_greatest short.le)
    have least : HasValue.value (One.one : Float) ≤ HasValue.value (ofNat n) :=
      NearestScalar.value_one.trans_le (rounded.isNearest.ge .one whole)
    exact (NearestScalar.le_iff OrderedScalar.isFinite_one rounded.1.isFinite).mpr least
  · -- Past the mantissa, rounding keeps what is at least one so, also where it overflows.
    have one : (One.one : Float) = ofNormal normal_one := by decide +kernel
    have unit : Canonical (2 ^ 52) (-52) := ⟨by decide, by decide, by decide, .inl (le_refl _)⟩
    have more : 2 ^ 52 * 2 ^ ((-52 : Int) - -53).toNat ≤ n * 2 ^ 53 :=
      Nat.le_mul_of_pos_left (2 ^ 53) positive
    obtain ⟨r, t, rounded, kept, above⟩ := round_reaches unit (by decide) more
    rw [le_iff, unpack_ofNat (not_lt.mp short), ofScientific_eq positive, rounded, one,
      unpack_ofNormal]
    exact le_packed unit.pos kept above

section
variable {x total : Float} (finite : Scalar.isFinite x = true)
include finite

theorem share_natural (natural : Zero.zero ≤ x) {n : Nat} (positive : 0 < n) :
    Scalar.isFinite (x / ofNat n) = true ∧ Zero.zero ≤ x / ofNat n := by
  have large : One.one ≤ ofNat n := one_le_ofNat positive
  have count : Zero.zero ≤ ofNat n := OrderedScalar.le_trans OrderedScalar.zero_le_one large
  cases bounded : Scalar.isFinite (ofNat n) with
  | true =>
    have least : 1 ≤ HasValue.value (ofNat n) := NearestScalar.value_one.symm.trans_le
      ((NearestScalar.le_iff OrderedScalar.isFinite_one bounded).mp large)
    have quotient : (x / ofNat n).toModel.unpack = (Float.Model.pack (UnpackedFloat.div
      Format.binary64 x.toModel.unpack (ofNat n).toModel.unpack)).unpack := rfl
    have numerator := (natural_iff x).mp natural
    have divided := div_natural numerator (reduced_of_isFinite bounded) (zero_lt_one.trans_le least)
    exact ⟨(isFinite_div numerator bounded least).trans finite,
      (natural_iff _).mpr (quotient ▸ divided.packed)⟩
  | false =>
    obtain ⟨kept, zero⟩ := div_infinite finite (eq_infinity count bounded)
    exact ⟨kept, (Scalar.value_nonneg_iff kept).mp zero.ge⟩

theorem sub_mul_zero (positive : Zero.zero < total) : total - x * ofNat 0 = total := by
  have origin : Scalar.isFinite (ofNat 0) = true := isFinite_ofNat (Nat.zero_le _)
  have nothing : HasValue.value x * HasValue.value (ofNat 0) = 0 := by
    rw [value_ofNat (Nat.zero_le _), Nat.cast_zero, mul_zero]
  have product := rounded_mul finite origin (by
    rw [nothing, abs_zero]
    exact greatest_pos.le)
  have vanishes : HasValue.value (x * ofNat 0) = 0 := (nothing ▸ product).isNearest.eq .zero
  cases bounded : Scalar.isFinite total with
  | true =>
    have same : HasValue.value total - HasValue.value (x * ofNat 0) = HasValue.value total := by
      rw [vanishes, sub_zero]
    have small : |HasValue.value total - HasValue.value (x * ofNat 0)| ≤ greatest := by
      rw [same]
      exact (reduced_of_isFinite bounded).abs_le_greatest
    have rounded := rounded_sub bounded product.1.isFinite small
    rw [same] at rounded
    have kept := rounded.isNearest.eq ⟨total, bounded, rfl⟩
    have above := (Scalar.value_pos_iff bounded).mpr positive
    exact eq_of_value rounded.1.isFinite bounded (kept.trans_ne above.ne') kept
  | false =>
    have infinite := eq_infinity (ComparableScalar.le_of_lt positive) bounded
    exact eq_of_unpack ((sub_finite infinite product.1.isFinite).trans infinite.symm)

theorem not_scaled_lt (natural : Zero.zero ≤ x) (positive : Zero.zero < total) :
    ¬ x * (total / total) < x := by
  cases bounded : Scalar.isFinite total with
  | true =>
    have above := (Scalar.value_pos_iff bounded).mpr positive
    have self : HasValue.value total / HasValue.value total = 1 := div_self above.ne'
    have rounded := rounded_div bounded bounded above.ne' (by
      rw [self, abs_one]
      exact (zpow_zero 2).symm.trans_le (two_pow_le_greatest (by norm_num)))
    rw [self] at rounded
    exact Scalar.not_lt_of_le (le_mul finite rounded.1.isFinite
      ((Scalar.value_nonneg_iff finite).mpr natural) (rounded.isNearest.ge .one (le_refl 1)))
  | false =>
    have infinite := eq_infinity (ComparableScalar.le_of_lt positive) bounded
    have quotient : (total / total).toModel.unpack = .notANumber := by
      show (Float.Model.pack (UnpackedFloat.div Format.binary64 total.toModel.unpack
        total.toModel.unpack)).unpack = .notANumber
      rw [infinite]
      rfl
    have undefined : (x * (total / total)).toModel.unpack = .notANumber := by
      show (Float.Model.pack (UnpackedFloat.mul Format.binary64 x.toModel.unpack
        (total / total).toModel.unpack)).unpack = .notANumber
      rw [quotient, mul_notANumber]
      rfl
    rw [lt_iff, lt_iff_rank]
    exact fun less => less.1 undefined

end

end Double

instance : ProportionalScalar Float where
  share finite natural positive := Double.share_natural finite natural positive
  sub_none finite positive := Double.sub_mul_zero finite positive
  not_scaled_lt finite natural positive := Double.not_scaled_lt finite natural positive

end SeededChoice
