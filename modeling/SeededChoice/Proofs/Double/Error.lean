import SeededChoice.Proofs.Double.Overflow
import SeededChoice.Proofs.Double.Whole

/-!
# How far rounding goes

Rounding moves a number by at most half a unit of its last place. Between the greatest double and
the one before it there is a gap of `2 ^ 971`, so a number at the far end of the gap may be scaled
and rounded twice before it is too large.
-/

namespace SeededChoice

namespace Double

/-! ### Half a unit -/

/-- A unit that is small beside a number, unless it is the least one, and not too small for it. -/
theorem exists_unit (a : ℝ) : ∃ t : Int, -1074 ≤ t ∧ |a| ≤ 2 ^ 53 * 2 ^ t ∧
    (2 : ℝ) ^ t ≤ |a| * 2 ^ (-52 : Int) + 2 ^ (-1074 : Int) := by
  rcases eq_or_ne a 0 with rfl | nonzero
  · exact ⟨-1074, le_refl _, by rw [abs_zero]; positivity, by rw [abs_zero, zero_mul, zero_add]⟩
  obtain ⟨n, least, most⟩ := exists_mem_Ico_zpow (abs_pos.mpr nonzero) one_lt_two
  have split : (2 : ℝ) ^ (n + 1) = 2 ^ 53 * 2 ^ (n - 52) := by
    rw [← zpow_natCast, ← zpow_add₀ two_ne_zero]
    congr 1
    omega
  have unit : (2 : ℝ) ^ (n - 52) = 2 ^ n * 2 ^ (-52 : Int) := zpow_add₀ two_ne_zero n (-52)
  rcases le_total (-1074) (n - 52) with normal | tiny
  · refine ⟨n - 52, normal, split ▸ most.le, ?_⟩
    rw [unit]
    have part := mul_le_mul_of_nonneg_right least (by positivity : (0 : ℝ) ≤ 2 ^ (-52 : Int))
    linarith [(by positivity : (0 : ℝ) < 2 ^ (-1074 : Int))]
  · refine ⟨-1074, le_refl _, ?_, ?_⟩
    · calc |a| ≤ 2 ^ 53 * 2 ^ (n - 52) := split ▸ most.le
        _ ≤ 2 ^ 53 * 2 ^ (-1074 : Int) := by
          apply mul_le_mul_of_nonneg_left _ (by positivity)
          exact zpow_le_zpow_right₀ one_le_two tiny
    · exact le_add_of_nonneg_left (by positivity)

theorem IsNearest.dist_le {a x : ℝ} (nearest : IsNearest a x) :
    |x - a| ≤ |a| * 2 ^ (-53 : Int) + 2 ^ (-1075 : Int) := by
  obtain ⟨t, low, few, small⟩ := exists_unit a
  have unit : (0 : ℝ) < 2 ^ t := by positivity
  have near : |a / 2 ^ t - round (a / 2 ^ t)| ≤ 1 / 2 := abs_sub_round _
  have bits : |round (a / 2 ^ t)| ≤ 2 ^ 53 := by
    have count : |a / 2 ^ t| ≤ 2 ^ 53 := by rwa [abs_div, abs_of_pos unit, div_le_iff₀ unit]
    have whole : (|round (a / 2 ^ t)| : ℝ) < 2 ^ 53 + 1 := by
      have triangle := abs_sub_abs_le_abs_sub (round (a / 2 ^ t) : ℝ) (a / 2 ^ t)
      rw [abs_sub_comm] at triangle
      linarith
    exact Int.lt_add_one_iff.mp (by exact_mod_cast whole)
  have halves : (2 : ℝ) ^ (-52 : Int) = 2 * 2 ^ (-53 : Int) ∧
      (2 : ℝ) ^ (-1074 : Int) = 2 * 2 ^ (-1075 : Int) :=
    ⟨zpow_add₀ two_ne_zero 1 (-53) |>.trans (by rw [zpow_one]),
      zpow_add₀ two_ne_zero 1 (-1075) |>.trans (by rw [zpow_one])⟩
  calc |x - a| ≤ |round (a / 2 ^ t) * 2 ^ t - a| := nearest _ ⟨_, t, bits, low, rfl⟩
    _ = |a / 2 ^ t - round (a / 2 ^ t)| * 2 ^ t := by
      rw [abs_sub_comm, ← abs_of_pos unit, ← abs_mul, abs_of_pos unit, sub_mul,
        div_mul_cancel₀ a unit.ne']
    _ ≤ 1 / 2 * 2 ^ t := mul_le_mul_of_nonneg_right near unit.le
    _ ≤ 1 / 2 * (|a| * 2 ^ (-52 : Int) + 2 ^ (-1074 : Int)) :=
      mul_le_mul_of_nonneg_left small (by norm_num)
    _ = |a| * 2 ^ (-53 : Int) + 2 ^ (-1075 : Int) := by
      rw [halves.1, halves.2]
      ring

/-! ### The greatest doubles -/

open Float.Model Float.Model.UnpackedFloat Scalar

/-- The greatest finite double. -/
def maxFinite : Float := assemble false 2046 0xFFFFFFFFFFFFF

theorem normal_greatest : Normal (2 ^ 53 - 1) 971 :=
  ⟨by norm_num, by norm_num, by norm_num, by norm_num⟩

theorem value_maxFinite : HasValue.value maxFinite = greatest := by
  have same : maxFinite = ofNormal normal_greatest := by decide +kernel
  show value maxFinite.toModel.unpack = greatest
  rw [same, unpack_ofNormal, value, Sign.apply, greatest]
  norm_num

theorem isFinite_maxFinite : isFinite maxFinite = true := by decide +kernel

theorem second_eq : second = (2 ^ 53 - 2) * 2 ^ (971 : Int) := by
  rw [second, greatest]
  ring

theorem two_pow_le_second {k : Int} (small : k ≤ 1022) : (2 : ℝ) ^ k ≤ second := by
  have top : (2 : ℝ) ^ (1022 : Int) = 2 ^ 51 * 2 ^ (971 : Int) := by
    rw [← zpow_natCast, ← zpow_add₀ two_ne_zero]
    norm_num
  calc (2 : ℝ) ^ k ≤ 2 ^ (1022 : Int) := zpow_le_zpow_right₀ one_le_two small
    _ = 2 ^ 51 * 2 ^ (971 : Int) := top
    _ ≤ (2 ^ 53 - 2) * 2 ^ (971 : Int) :=
      mul_le_mul_of_nonneg_right (by norm_num) (by positivity)
    _ = second := second_eq.symm

/-- There is nothing between the two greatest doubles. -/
theorem Reduced.le_second {u : UnpackedFloat} (reduced : Reduced u) (less : value u < greatest) :
    value u ≤ second := by
  have unit : (0 : ℝ) < 2 ^ (971 : Int) := by positivity
  have zero : (0 : ℝ) ≤ second := (by positivity : (0 : ℝ) ≤ 2 ^ (0 : Int)).trans
    (two_pow_le_second (by norm_num))
  cases reduced with
  | zero s => exact zero
  | @finite s m e canonical high =>
    have most : (m : ℝ) ≤ 2 ^ 53 - 1 := by
      have bits : m + 1 ≤ 2 ^ 53 := canonical.most
      rw [le_sub_iff_add_le]
      exact_mod_cast bits
    cases s with
    | negative =>
      rw [value, Sign.apply]
      push_cast
      exact (mul_nonpos_of_nonpos_of_nonneg (by simp) (by positivity)).trans zero
    | positive =>
      rw [value, Sign.apply, Int.cast_natCast] at *
      rcases high.lt_or_eq with lower | rfl
      · -- Half the unit, at most.
        have half : (2 : ℝ) ^ e ≤ 2 ^ (970 : Int) := zpow_le_zpow_right₀ one_le_two (by omega)
        have twice : (2 : ℝ) ^ (971 : Int) = 2 * 2 ^ (970 : Int) := by
          rw [← zpow_one_add₀ two_ne_zero]
          norm_num
        calc (m : ℝ) * 2 ^ e ≤ (2 ^ 53 - 1) * 2 ^ (970 : Int) :=
              mul_le_mul most half (by positivity) (by norm_num)
          _ ≤ (2 ^ 53 - 2) * 2 ^ (971 : Int) := by
              rw [twice, ← mul_assoc]
              exact mul_le_mul_of_nonneg_right (by norm_num) (by positivity)
          _ = second := second_eq.symm
      · rw [greatest, mul_lt_mul_iff_left₀ unit] at less
        rw [second_eq]
        apply mul_le_mul_of_nonneg_right _ unit.le
        have bits : m + 1 < 2 ^ 53 := by
          rw [lt_sub_iff_add_lt] at less
          exact_mod_cast less
        rw [le_sub_iff_add_le]
        exact_mod_cast bits

/-- What is less than half the gap does not show beside the greatest double. -/
theorem Rounded.eq_greatest {s : ℝ} {u : UnpackedFloat} (rounded : Rounded (greatest - s) u)
    (natural : 0 ≤ s) (small : 2 * s < 2 ^ (971 : Int)) : value u = greatest := by
  have near := rounded.2 greatest isDouble_greatest
  rw [sub_sub_cancel, abs_of_nonneg natural] at near
  apply le_antisymm ((le_abs_self _).trans rounded.1.abs_le_greatest)
  by_contra less
  have below := rounded.1.le_second (not_le.mp less)
  rw [second] at below
  linarith [(abs_le.mp near).1]

/-- A number that is scaled by a quotient of one not past the second double by one that is no less
than itself. -/
theorem abs_scaled_le {r m v q : ℝ} (nearest : IsNearest (r / m) q) (natural : 0 ≤ v) (less : v ≤ m)
    (positive : 0 < m) (most : v ≤ greatest) (small : |r| ≤ second) : |v * q| ≤ greatest := by
  have quotient : |r / m| * v ≤ second := by
    apply le_trans _ small
    rw [abs_div, abs_of_pos positive, div_mul_eq_mul_div, div_le_iff₀ positive]
    exact mul_le_mul_of_nonneg_left less (abs_nonneg r)
  have size : |q| ≤ |r / m| + (|r / m| * 2 ^ (-53 : Int) + 2 ^ (-1075 : Int)) := by
    have triangle := abs_sub_abs_le_abs_sub q (r / m)
    have moved := nearest.dist_le
    linarith
  have errors : ((2 ^ 53 - 2) * 2 ^ (-53 : Int) + (2 ^ 53 - 1) * 2 ^ (-1075 : Int) : ℝ) ≤ 1 := by
    have tiny : (2 : ℝ) ^ (-1075 : Int) ≤ 2 ^ (-106 : Int) :=
      zpow_le_zpow_right₀ one_le_two (by norm_num)
    apply (add_le_add_right (mul_le_mul_of_nonneg_left tiny (by norm_num)) _).trans
    norm_num
  calc |v * q| = |q| * v := by rw [abs_mul, abs_of_nonneg natural, mul_comm]
    _ ≤ (|r / m| + (|r / m| * 2 ^ (-53 : Int) + 2 ^ (-1075 : Int))) * v :=
      mul_le_mul_of_nonneg_right size natural
    _ = |r / m| * v + (|r / m| * v * 2 ^ (-53 : Int) + v * 2 ^ (-1075 : Int)) := by ring
    _ ≤ second + (second * 2 ^ (-53 : Int) + greatest * 2 ^ (-1075 : Int)) := by
      apply add_le_add quotient
      apply add_le_add
      · exact mul_le_mul_of_nonneg_right quotient (by positivity)
      · exact mul_le_mul_of_nonneg_right most (by positivity)
    _ = second + ((2 ^ 53 - 2) * 2 ^ (-53 : Int) + (2 ^ 53 - 1) * 2 ^ (-1075 : Int)) *
          2 ^ (971 : Int) := by
      rw [second_eq, greatest]
      ring
    _ ≤ second + 1 * 2 ^ (971 : Int) := by
      apply add_le_add_right
      exact mul_le_mul_of_nonneg_right errors (by positivity)
    _ = greatest := by
      rw [second, one_mul, sub_add_cancel]

/-! ### Operations up to the greatest double -/

open HasValue in
section
variable {x y : Float} (left : isFinite x = true) (right : isFinite y = true)
include left right

theorem rounded_sub (small : |HasValue.value x - HasValue.value y| ≤ greatest) :
    Rounded (HasValue.value x - HasValue.value y) (x - y).toModel.unpack :=
  (sub_nearest (reduced_of_isFinite left) (reduced_of_isFinite right) small).unpacked rfl

theorem rounded_mul (small : |HasValue.value x * HasValue.value y| ≤ greatest) :
    Rounded (HasValue.value x * HasValue.value y) (x * y).toModel.unpack :=
  (mul_nearest (reduced_of_isFinite left) (reduced_of_isFinite right) small).unpacked rfl

theorem rounded_div (nonzero : HasValue.value y ≠ 0)
    (small : |HasValue.value x / HasValue.value y| ≤ greatest) :
    Rounded (HasValue.value x / HasValue.value y) (x / y).toModel.unpack :=
  (div_nearest (reduced_of_isFinite left) (reduced_of_isFinite right) nonzero small).unpacked rfl

end

theorem IsNearest.ge {a x t : ℝ} (nearest : IsNearest a x) (double : IsDouble t) (least : t ≤ a) :
    t ≤ x := by
  have near := nearest t double
  rw [abs_of_nonpos (sub_nonpos.mpr least)] at near
  linarith [neg_abs_le (x - a)]

/-- The product with a number of at least one, before packing, is at least the other number. -/
theorem mul_reaches {m n : Nat} {e f : Int} (left : Canonical m e) (right : Canonical n f)
    (scaling : (1 : ℝ) ≤ n * 2 ^ f) :
    ∃ r t, UnpackedFloat.mul Format.binary64 (.finite .positive m e left.pos)
        (.finite .positive n f right.pos) = ofMantissa r t ∧
      Canonical r t ∧ (e < t ∨ e = t ∧ m ≤ r) := by
  have exact : (m : ℝ) * 2 ^ e * (n * 2 ^ f) / 2 ^ (e + f) = ((m * n : Nat) : ℝ) := by
    rw [div_eq_iff (by positivity), zpow_add₀ two_ne_zero]
    push_cast
    ring
  obtain ⟨r, t, rounded, most, low, full, nearest⟩ := roundWithAccuracy_isNearest
    (exact ▸ Describes.ofExact (m * n)) (mul_fine left right)
  have more : (m : ℝ) * 2 ^ e ≤ r * 2 ^ t :=
    nearest.ge ⟨m, e, by exact_mod_cast left.most.le, left.low, by push_cast; rfl⟩
      (le_mul_of_one_le_right (by positivity) scaling)
  have size : (0 : ℝ) < m * 2 ^ e := mul_pos (Nat.cast_pos.mpr left.pos) (by positivity)
  have canonical : Canonical r t := by
    refine ⟨Nat.pos_of_ne_zero ?_, most, low, full⟩
    rintro rfl
    rw [Nat.cast_zero, zero_mul] at more
    exact absurd size (not_lt.mpr more)
  refine ⟨r, t, rounded, canonical, ?_⟩
  by_contra below
  exact absurd more (not_le.mpr (canonical.value_lt left (by omega)))

/-- A product with a number of at least one is no less, also where it is too large. -/
theorem le_mul {x y : Float} (left : isFinite x = true) (right : isFinite y = true)
    (natural : 0 ≤ HasValue.value x) (scaling : 1 ≤ HasValue.value y) : x ≤ x * y := by
  have product : (x * y).toModel.unpack = (Float.Model.pack (UnpackedFloat.mul Format.binary64
    x.toModel.unpack y.toModel.unpack)).unpack := rfl
  have first := reduced_of_isFinite left
  have second := reduced_of_isFinite right
  have signs := first.natural natural
  have factor := second.natural (zero_le_one.trans scaling)
  rw [le_iff, product]
  simp only [HasValue.value] at scaling
  generalize x.toModel.unpack = u at *
  generalize y.toModel.unpack = v at *
  rcases second with _ | ⟨_, other, -⟩
  · exact absurd scaling (not_le.mpr zero_lt_one)
  obtain _ | _ := factor
  rcases first with s | ⟨_, canonical, -⟩
  · exact (zero_le_iff s _).mpr (Natural.zero _).packed
  obtain _ | _ := signs
  rw [value, Sign.apply, Int.cast_natCast] at scaling
  obtain ⟨r, t, rounded, kept, above⟩ := mul_reaches canonical other scaling
  rw [rounded]
  exact le_packed canonical.pos kept above

/-- A sum that is no infinity is not much beside the greatest of its numbers. -/
theorem sum_le {xs : List Float} {p : Float} (finite : isFinite p = true)
    (short : xs.length < 2 ^ 60) (each : ∀ x ∈ xs, Within (HasValue.value p) x)
    (natural : 0 ≤ HasValue.value p) (total : isFinite (sum xs) = true) :
    HasValue.value (sum xs) ≤ 2 ^ 210 * HasValue.value p := by
  rcases le_or_gt (2 ^ 186 * HasValue.value p) limit with room | large
  · apply (within_sum ⟨p, finite, rfl⟩ natural room short each).most.trans
    exact mul_le_mul_of_nonneg_right (pow_le_pow_right₀ one_le_two (by norm_num)) natural
  · have most := (le_abs_self _).trans (reduced_of_isFinite total).abs_le_greatest
    have top : greatest ≤ 2 ^ 24 * limit := by
      have split : (2 : ℝ) ^ 24 * limit = 2 ^ 53 * 2 ^ (971 : Int) := by
        rw [limit, Nat.cast_ofNat, zpow_ofNat, ← pow_add, ← pow_add]
      rw [split, greatest]
      exact mul_le_mul_of_nonneg_right (by norm_num) (by positivity)
    calc HasValue.value (sum xs) ≤ 2 ^ 24 * limit := most.trans top
      _ ≤ 2 ^ 24 * (2 ^ 186 * HasValue.value p) :=
        mul_le_mul_of_nonneg_left large.le (by positivity)
      _ = 2 ^ 210 * HasValue.value p := by ring

end Double

end SeededChoice
