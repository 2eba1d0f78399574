import SeededChoice.Proofs.Double.Operations
import SeededChoice.Proofs.Scalar.Unrounded

/-!
# Whole doubles

Whole numbers up to `2 ^ 53` are doubles, and so are their sums as far as these go. A double other
than zero is known by its value, so that such a sum is the double of the sum.
-/

namespace SeededChoice.Double

open Float.Model Float.Model.UnpackedFloat

theorem eq_of_unpack {x y : Float} (same : x.toModel.unpack = y.toModel.unpack) : x = y := by
  obtain ⟨⟨bits, valid⟩⟩ := x
  obtain ⟨⟨others, other⟩⟩ := y
  congr 2
  exact UInt64.toBitVec_inj.mp ((unpack_inj_of_valid valid other).mp same)

theorem Reduced.eq_of_value {u v : UnpackedFloat} (left : Reduced u) (right : Reduced v)
    (nonzero : value u ≠ 0) (same : value u = value v) : u = v := by
  have level : rank u = rank v := by
    apply le_antisymm
    · exact (rank_le_iff left right).mpr same.le
    · exact (rank_le_iff right left).mpr same.ge
  rcases left with s | ⟨_ | _, first, -⟩ <;> rcases right with t | ⟨_ | _, second, -⟩ <;>
    simp [rank] at level
  · exact absurd rfl nonzero
  · obtain ⟨rfl, rfl⟩ := level
    rfl
  · obtain ⟨rfl, rfl⟩ := level
    rfl

/-- Finite doubles of the same value other than zero are the same. -/
theorem eq_of_value {x y : Float} (left : x.toModel.unpack.isFinite = true)
    (right : y.toModel.unpack.isFinite = true) (nonzero : HasValue.value x ≠ 0)
    (same : HasValue.value x = HasValue.value y) : x = y :=
  eq_of_unpack ((reduced_of_isFinite left).eq_of_value (reduced_of_isFinite right) nonzero same)

section
variable {m n : Nat} (small : n ≤ 2 ^ 53)
include small

theorem isDouble_natCast : IsDouble n :=
  ⟨n, 0, by rw [Nat.abs_cast]; exact_mod_cast small, by norm_num, by simp⟩

theorem natCast_le_greatest : (n : ℝ) ≤ greatest := by
  have count : (n : ℝ) ≤ 2 ^ (53 : Int) := by exact_mod_cast small
  exact count.trans (two_pow_le_greatest (by norm_num))

theorem isFinite_ofNat : (ofNat n).toModel.unpack.isFinite = true :=
  (ofNat_nearest (natCast_le_greatest small)).1.isFinite

theorem value_ofNat : HasValue.value (ofNat n) = (n : ℝ) :=
  (ofNat_nearest (natCast_le_greatest small)).value_eq (isDouble_natCast small)

end

theorem ofNat_add {m n : Nat} (small : m + n ≤ 2 ^ 53) : ofNat m + ofNat n = ofNat (m + n) := by
  rcases Nat.eq_zero_or_pos (m + n) with nothing | positive
  · obtain ⟨rfl, rfl⟩ := Nat.add_eq_zero_iff.mp nothing
    rfl
  have left : m ≤ 2 ^ 53 := by omega
  have right : n ≤ 2 ^ 53 := by omega
  have total : HasValue.value (ofNat m) + HasValue.value (ofNat n) = ((m + n : Nat) : ℝ) := by
    rw [value_ofNat left, value_ofNat right, Nat.cast_add]
  have bound : |HasValue.value (ofNat m) + HasValue.value (ofNat n)| ≤ greatest := by
    rw [total, Nat.abs_cast]
    exact natCast_le_greatest small
  have rounded := (add_nearest (reduced_of_isFinite (isFinite_ofNat left))
    (reduced_of_isFinite (isFinite_ofNat right)) bound).unpacked
      (v := (ofNat m + ofNat n).toModel.unpack) rfl
  have added : HasValue.value (ofNat m + ofNat n) = ((m + n : Nat) : ℝ) :=
    (rounded.value_eq (total.symm ▸ isDouble_natCast small)).trans total
  apply eq_of_value rounded.1.isFinite (isFinite_ofNat small)
  · rw [added, Nat.cast_ne_zero]
    exact positive.ne'
  · rw [added, value_ofNat small]

theorem countsTo : Scalar.CountsTo Float (2 ^ 53) where
  adds := {
    zero := rfl
    add := ofNat_add
    part := fun whole => (Nat.le_add_right _ _).trans whole }
  ofInt? {n} small := by
    have natural : ofInt n = ofNat n := if_neg (by omega)
    have finite : (ofNat n).isFinite = true := isFinite_ofNat small
    show (if (ofInt n).isFinite then _ else _) = _
    rw [natural, if_pos finite]
    rfl
  finite small := isFinite_ofNat small
  natural small negative := by
    have less := (Scalar.lt_iff (isFinite_ofNat small) OrderedScalar.isFinite_zero).mp negative
    rw [NearestScalar.value_zero] at less
    exact absurd (value_ofNat small ▸ less) (not_lt.mpr (Nat.cast_nonneg _))
  positive {n} positive small := by
    rw [Bool.eq_false_iff]
    intro zero
    have least := ComparableScalar.le_of_beq zero
    rw [NearestScalar.le_iff (isFinite_ofNat small) OrderedScalar.isFinite_zero,
      NearestScalar.value_zero] at least
    exact absurd (value_ofNat small ▸ least) (not_le.mpr (Nat.cast_pos.mpr positive))

end SeededChoice.Double
