import SeededChoice.Proofs.Double.Rounding

/-!
# Rounding to nearest

What the bits that are cut off say of a number, and that no double is nearer to a number than the one
it is rounded to.
-/

namespace SeededChoice.Double

open Float.Model Float.Model.UnpackedFloat

/-! ### Bits cut off -/

/-- What an extended mantissa says of the number that it was cut off from. -/
inductive Describes : ExtendedMantissa → ℝ → Prop where
  | exact (m : Nat) : Describes ⟨m, false, false⟩ m
  | below {m : Nat} {x : ℝ} (more : m < x) (less : x < m + 1 / 2) : Describes ⟨m, false, true⟩ x
  | half (m : Nat) : Describes ⟨m, true, false⟩ (m + 1 / 2)
  | above {m : Nat} {x : ℝ} (more : m + 1 / 2 < x) (less : x < m + 1) : Describes ⟨m, true, true⟩ x

namespace Describes

variable {em : ExtendedMantissa} {x : ℝ}

theorem least (described : Describes em x) : em.mantissa ≤ x := by
  cases described with
  | exact m => exact le_refl _
  | below more less => exact more.le
  | half m => exact le_add_of_nonneg_right (by norm_num)
  | above more less => linarith

theorem shiftRightOne (described : Describes em x) : Describes em.shiftRightOne (x / 2) := by
  have even (k : Nat) (b c : Bool) :
      ExtendedMantissa.shiftRightOne ⟨2 * k, b, c⟩ = ⟨k, false, b || c⟩ := by
    simp [ExtendedMantissa.shiftRightOne]
  have odd (k : Nat) (b c : Bool) :
      ExtendedMantissa.shiftRightOne ⟨2 * k + 1, b, c⟩ = ⟨k, true, b || c⟩ := by
    simp [ExtendedMantissa.shiftRightOne]
    omega
  obtain ⟨m, b, c⟩ := em
  obtain ⟨k, rfl | rfl⟩ := Nat.even_or_odd' m
  · rw [even]
    cases described with
    | exact =>
      have half : ((2 * k : Nat) : ℝ) / 2 = k := by
        push_cast
        ring
      rw [half]
      exact .exact k
    | below more less =>
      push_cast at more less
      exact .below (by linarith) (by linarith)
    | half =>
      push_cast
      exact .below (by linarith) (by linarith)
    | above more less =>
      push_cast at more less
      exact .below (by linarith) (by linarith)
  · rw [odd]
    cases described with
    | exact =>
      have half : ((2 * k + 1 : Nat) : ℝ) / 2 = k + 1 / 2 := by
        push_cast
        ring
      rw [half]
      exact .half k
    | below more less =>
      push_cast at more less
      exact .above (by linarith) (by linarith)
    | half =>
      push_cast
      exact .above (by linarith) (by linarith)
    | above more less =>
      push_cast at more less
      exact .above (by linarith) (by linarith)

theorem shiftRight (described : Describes em x) (k : Nat) : Describes (em >>> k) (x / 2 ^ k) := by
  induction k with
  | zero => rwa [pow_zero, div_one]
  | succ k ih =>
    rw [pow_succ, ← div_div]
    exact ih.shiftRightOne

/-- Rounding moves a number by at most a half. -/
theorem near (described : Describes em x) : |(em.roundedMantissa : ℝ) - x| ≤ 1 / 2 := by
  rw [abs_le]
  cases described with
  | exact m =>
    have kept : ExtendedMantissa.roundedMantissa ⟨m, false, false⟩ = m := rfl
    rw [kept]
    constructor <;> norm_num
  | @below m x more less =>
    have kept : ExtendedMantissa.roundedMantissa ⟨m, false, true⟩ = m := rfl
    rw [kept]
    constructor <;> linarith
  | half m =>
    have moved : ExtendedMantissa.roundedMantissa ⟨m, true, false⟩ = m + m % 2 := rfl
    rw [moved]
    rcases Nat.mod_two_eq_zero_or_one m with even | odd
    · rw [even]
      constructor <;> norm_num
    · rw [odd]
      push_cast
      constructor <;> linarith
  | @above m x more less =>
    have moved : ExtendedMantissa.roundedMantissa ⟨m, true, true⟩ = m + 1 := rfl
    rw [moved]
    push_cast
    constructor <;> linarith

theorem ofExact (m : Nat) : Describes (.ofMantissaAndAccuracy m .exact) m := .exact m

/-- The bits of a quotient describe it. -/
theorem ofFraction {m n : Nat} (positive : 0 < n) :
    Describes (.ofMantissaAndAccuracy (m / n) (accuracyOfFraction (m % n) n)) ((m : ℝ) / n) := by
  have whole : (m : ℝ) / n = (m / n : Nat) + ((m % n : Nat) : ℝ) / n := by
    field_simp
    exact_mod_cast (Nat.div_add_mod m n).symm
  have divisor : (0 : ℝ) < n := Nat.cast_pos.mpr positive
  have rest : ((m % n : Nat) : ℝ) < n := Nat.cast_lt.mpr (Nat.mod_lt m positive)
  rw [whole]
  generalize m / n = q
  generalize m % n = r at rest
  unfold accuracyOfFraction
  split
  · rename_i zero
    rw [zero, Nat.cast_zero, zero_div, add_zero]
    exact .exact q
  · rename_i nonzero
    have part : (0 : ℝ) < r := Nat.cast_pos.mpr (Nat.pos_of_ne_zero nonzero)
    cases compared : compare (2 * r) n with
    | lt =>
      have less : (2 * r : ℝ) < n := by exact_mod_cast Nat.compare_eq_lt.mp compared
      refine .below (lt_add_of_pos_right _ (by positivity)) ?_
      rw [add_lt_add_iff_left, div_lt_div_iff₀ divisor (by norm_num)]
      linarith
    | eq =>
      have same : (2 * r : ℝ) = n := by exact_mod_cast Nat.compare_eq_eq.mp compared
      have half : (r : ℝ) / n = 1 / 2 := by
        rw [div_eq_div_iff divisor.ne' (by norm_num)]
        linarith
      rw [half]
      exact .half q
    | gt =>
      have more : (n : ℝ) < 2 * r := by exact_mod_cast Nat.compare_eq_gt.mp compared
      refine .above ?_ ?_
      · rw [add_lt_add_iff_left, div_lt_div_iff₀ (by norm_num) divisor]
        linarith
      · rw [add_lt_add_iff_left, div_lt_one divisor]
        exact rest

end Describes

/-! ### Nearest doubles -/

/-- A number of 53 bits, none of them worth less than the least positive double. -/
def IsDouble (x : ℝ) : Prop := ∃ k e : Int, |k| ≤ 2 ^ 53 ∧ -1074 ≤ e ∧ x = k * 2 ^ e

/-- No double is nearer. -/
def IsNearest (a x : ℝ) : Prop := ∀ d, IsDouble d → |x - a| ≤ |d - a|

theorem isNearest_self (a : ℝ) : IsNearest a a := by
  intro d _
  rw [sub_self, abs_zero]
  exact abs_nonneg _

theorem IsDouble.neg {x : ℝ} (double : IsDouble x) : IsDouble (-x) := by
  obtain ⟨k, e, bits, low, rfl⟩ := double
  exact ⟨-k, e, (abs_neg k).trans_le bits, low, by push_cast; ring⟩

theorem IsNearest.neg {a x : ℝ} (nearest : IsNearest a x) : IsNearest (-a) (-x) := by
  intro d double
  have left : -x - -a = -(x - a) := by ring
  have right : d - -a = -(-d - a) := by ring
  rw [left, right, abs_neg, abs_neg]
  exact nearest (-d) double.neg

/-- A whole number at most a half away is the nearest of all. -/
theorem near_least {r : Int} {x : ℝ} (near : |(r : ℝ) - x| ≤ 1 / 2) (k : Int) :
    |(r : ℝ) - x| ≤ |(k : ℝ) - x| := by
  rcases eq_or_ne k r with rfl | other
  · exact le_refl _
  have apart : (1 : ℝ) ≤ |(k : ℝ) - r| := by exact_mod_cast Int.one_le_abs (sub_ne_zero.mpr other)
  have triangle := abs_sub_le (k : ℝ) x r
  rw [abs_sub_comm x] at triangle
  linarith

/-- The doubles near a number are multiples of the unit that it is rounded to: those in smaller units
lie below its leading bit. -/
theorem isNearest_of_near {a : ℝ} {r : Nat} {t : Int} (near : |(r : ℝ) - a / 2 ^ t| ≤ 1 / 2)
    (full : 2 ^ 52 ≤ a / 2 ^ t ∨ t = -1074) : IsNearest a (r * 2 ^ t) := by
  rintro d ⟨k, e, bits, low, rfl⟩
  have unit : (0 : ℝ) < 2 ^ t := by positivity
  have scaled (y : ℝ) : |y * 2 ^ t - a| = |y - a / 2 ^ t| * 2 ^ t := by
    rw [← abs_of_pos unit, ← abs_mul, sub_mul, abs_of_pos unit, div_mul_cancel₀ a unit.ne']
  have units : (k : ℝ) * 2 ^ e = k * 2 ^ (e - t) * 2 ^ t := by
    rw [mul_assoc, ← zpow_add₀ two_ne_zero, sub_add_cancel]
  rw [units, scaled, scaled]
  apply mul_le_mul_of_nonneg_right _ unit.le
  rcases le_or_gt t e with coarse | fine
  · have whole : (k : ℝ) * 2 ^ (e - t) = ((k * 2 ^ (e - t).toNat : Int) : ℝ) := by
      push_cast
      rw [← zpow_natCast, Int.toNat_of_nonneg (by omega)]
    rw [whole]
    exact near_least near _
  · have high : 2 ^ 52 ≤ a / 2 ^ t := full.resolve_right (by omega)
    have small : (k : ℝ) * 2 ^ (e - t) ≤ 2 ^ 52 := by
      have count : (k : ℝ) ≤ 2 ^ 53 := by exact_mod_cast (le_abs_self k).trans bits
      have half : (2 : ℝ) ^ (e - t) ≤ 2 ^ (-1 : Int) := zpow_le_zpow_right₀ one_le_two (by omega)
      calc (k : ℝ) * 2 ^ (e - t) ≤ 2 ^ 53 * 2 ^ (-1 : Int) := by
            apply mul_le_mul count half (by positivity) (by positivity)
        _ = 2 ^ 52 := by norm_num
    have top := near_least (r := r) near (2 ^ 52)
    have whole : ((2 ^ 52 : Int) : ℝ) = 2 ^ 52 := by norm_num
    rw [whole, abs_sub_comm (2 ^ 52), abs_of_nonneg (sub_nonneg.mpr high)] at top
    rw [abs_sub_comm (k * 2 ^ (e - t) : ℝ), abs_of_nonneg (sub_nonneg.mpr (small.trans high))]
    exact top.trans (sub_le_sub_left small _)

/-! ### Values -/

/-- The value of a finite number. -/
noncomputable def value : UnpackedFloat → ℝ
  | .finite s m e _ => s.apply m * 2 ^ e
  | .zero _ | .infinity _ | .notANumber => 0

theorem apply_neg (s : Sign) (n : Int) : (-s).apply n = -s.apply n := by
  cases s with
  | negative => exact (Int.neg_neg n).symm
  | positive => rfl

theorem value_neg (u : UnpackedFloat) : value u.neg = -value u := by
  cases u with
  | finite s m e positive =>
    rw [UnpackedFloat.neg, value, value, apply_neg]
    push_cast
    ring
  | zero | infinity | notANumber => exact neg_zero.symm

/-- A finite double as unpacking gives it. -/
inductive Reduced : UnpackedFloat → Prop where
  | zero (s : Sign) : Reduced (.zero s)
  | finite (s : Sign) {m : Nat} {e : Int} (canonical : Canonical m e) (high : e ≤ 971) :
    Reduced (.finite s m e canonical.pos)

theorem reduced_unpack {bits : BitVec 64}
    (finite : (UnpackedFloat.unpack Format.binary64 bits).isFinite = true) :
    Reduced (UnpackedFloat.unpack Format.binary64 bits) := by
  cases unpacked : UnpackedFloat.unpack Format.binary64 bits with
  | zero s => exact .zero s
  | finite s m e positive =>
    obtain ⟨canonical, high⟩ := unpack_finite unpacked
    exact .finite s canonical high
  | infinity | notANumber =>
    rw [unpacked] at finite
    cases finite

theorem reduced_of_isFinite {x : Float} (finite : x.toModel.unpack.isFinite = true) :
    Reduced x.toModel.unpack := reduced_unpack finite

theorem unpack_pack_negative {m : Nat} {e : Int} (positive : 0 < m) :
    (Float.Model.pack (.finite .negative m e positive)).unpack =
      (Float.Model.pack (.finite .positive m e positive)).unpack.neg := by
  have same (exponent : BitVec 11) (fraction : BitVec 52) :
      UnpackedFloat.unpack Format.binary64
          (packComponents Format.binary64 .negative exponent fraction) =
        (UnpackedFloat.unpack Format.binary64
          (packComponents Format.binary64 .positive exponent fraction)).neg := by
    simp only [UnpackedFloat.unpack, unpackExponent_packComponents, unpackMantissa_packComponents,
      unpackSign_pack]
    split_ifs <;> rfl
  show UnpackedFloat.unpack Format.binary64 (UnpackedFloat.pack Format.binary64 _) =
    (UnpackedFloat.unpack Format.binary64 (UnpackedFloat.pack Format.binary64 _)).neg
  simp only [UnpackedFloat.pack]
  split_ifs
  · exact same _ _
  · exact same _ _
  · exact same _ _

namespace Reduced

variable {u : UnpackedFloat}

theorem neg (reduced : Reduced u) : Reduced u.neg := by
  cases reduced with
  | zero s => exact .zero (-s)
  | finite s canonical high => exact .finite (-s) canonical high

theorem isFinite (reduced : Reduced u) : u.isFinite = true := by
  cases reduced <;> rfl

/-- Packing a finite double loses nothing. -/
theorem unpack_pack (reduced : Reduced u) : (Float.Model.pack u).unpack = u := by
  cases reduced with
  | zero s => cases s <;> rfl
  | finite s canonical high =>
    cases s with
    | positive => exact Double.unpack_pack canonical high
    | negative =>
      rw [unpack_pack_negative, Double.unpack_pack canonical high]
      rfl

theorem isDouble (reduced : Reduced u) : IsDouble (value u) := by
  cases reduced with
  | zero s => exact ⟨0, 0, by norm_num, by norm_num, by simp [value]⟩
  | @finite s m e canonical high =>
    refine ⟨s.apply m, e, ?_, canonical.low, rfl⟩
    have most := canonical.most
    cases s <;> simp only [Sign.apply, abs_neg, Nat.abs_cast] <;> omega

end Reduced

/-! ### Rounding -/

/-- A finite double that no other is nearer than to `a`. -/
def Rounded (a : ℝ) (u : UnpackedFloat) : Prop := Reduced u ∧ IsNearest a (value u)

theorem Rounded.neg {a : ℝ} {u : UnpackedFloat} (rounded : Rounded a u) : Rounded (-a) u.neg := by
  refine ⟨rounded.1.neg, ?_⟩
  rw [value_neg]
  exact rounded.2.neg

theorem rounded_self {u : UnpackedFloat} (reduced : Reduced u) : Rounded (value u) u :=
  ⟨reduced, isNearest_self _⟩

theorem rounded_zero (s : Sign) : Rounded 0 (.zero s) := rounded_self (.zero s)

theorem value_ofMantissa (r : Nat) (t : Int) : value (ofMantissa r t) = r * 2 ^ t := by
  unfold ofMantissa
  split
  · rename_i zero
    rw [zero, Nat.cast_zero, zero_mul]
    rfl
  · simp [value, Sign.apply]

theorem reduced_ofMantissa {r : Nat} {t : Int} (most : r < 2 ^ 53) (low : -1074 ≤ t)
    (full : 2 ^ 52 ≤ r ∨ t = -1074) (high : t ≤ 971) : Reduced (ofMantissa r t) := by
  unfold ofMantissa
  split
  · exact .zero .positive
  · rename_i nonzero
    exact .finite .positive ⟨Nat.pos_of_ne_zero nonzero, most, low, full⟩ high

/-- The greatest finite double. -/
noncomputable def greatest : ℝ := (2 ^ 53 - 1) * 2 ^ (971 : Int)

/-- The double before the greatest. -/
noncomputable def second : ℝ := greatest - 2 ^ (971 : Int)

theorem two_pow_le_greatest {k : Int} (small : k ≤ 1023) : (2 : ℝ) ^ k ≤ greatest := by
  have top : (2 : ℝ) ^ (1023 : Int) = 2 ^ 52 * 2 ^ (971 : Int) := by
    rw [← zpow_natCast, ← zpow_add₀ two_ne_zero]
    norm_num
  have fraction : (2 : ℝ) ^ 52 ≤ 2 ^ 53 - 1 := by norm_num
  calc (2 : ℝ) ^ k ≤ 2 ^ (1023 : Int) := zpow_le_zpow_right₀ one_le_two small
    _ = 2 ^ 52 * 2 ^ (971 : Int) := top
    _ ≤ greatest := mul_le_mul_of_nonneg_right fraction (by positivity)

theorem greatest_pos : 0 < greatest :=
  (by positivity : (0 : ℝ) < 2 ^ (0 : Int)).trans_le (two_pow_le_greatest (by norm_num))

theorem exponent_le {a : ℝ} {t : Int} (full : 2 ^ 52 ≤ a / 2 ^ t) (small : a ≤ greatest) :
    t ≤ 971 := by
  have top : (2 : ℝ) ^ (1024 : Int) = 2 ^ 53 * 2 ^ (971 : Int) := by
    rw [← zpow_natCast, ← zpow_add₀ two_ne_zero]
    norm_num
  have bound : greatest < 2 ^ (1024 : Int) := by
    rw [top]
    exact mul_lt_mul_of_pos_right (by norm_num) (by positivity)
  rw [le_div_iff₀ (by positivity), ← zpow_natCast, ← zpow_add₀ two_ne_zero] at full
  have exponents := (zpow_lt_zpow_iff_right₀ one_lt_two).mp ((full.trans small).trans_lt bound)
  omega

theorem Reduced.abs_le_greatest {u : UnpackedFloat} (reduced : Reduced u) :
    |value u| ≤ greatest := by
  cases reduced with
  | zero s =>
    rw [show value (.zero s) = 0 from rfl, abs_zero]
    exact (zpow_nonneg (by norm_num) 0).trans (two_pow_le_greatest (k := 0) (by norm_num))
  | @finite s m e canonical high =>
    have most : (m : ℝ) ≤ 2 ^ 53 - 1 := by
      have bits : m + 1 ≤ 2 ^ 53 := canonical.most
      rw [le_sub_iff_add_le]
      exact_mod_cast bits
    have scale : (2 : ℝ) ^ e ≤ 2 ^ (971 : Int) := zpow_le_zpow_right₀ one_le_two high
    have size : |value (.finite s m e canonical.pos)| = m * 2 ^ e := by
      cases s <;> simp [value, Sign.apply, abs_mul]
    rw [size]
    exact mul_le_mul most scale (by positivity) (by norm_num)

theorem isDouble_greatest : IsDouble greatest :=
  ⟨2 ^ 53 - 1, 971, by norm_num, by norm_num, by rw [greatest]; norm_num⟩

/-- What rounding comes to, whether or not that is too large for a double. -/
theorem roundWithAccuracy_isNearest {m : Nat} {e : Int} {accuracy : Accuracy} {a : ℝ}
    (described : Describes (.ofMantissaAndAccuracy m accuracy) (a / 2 ^ e))
    (fine : e ≤ max (m.log2 + e - 52) (-1074)) :
    ∃ r t, roundWithAccuracy Format.binary64 .positive m e accuracy = ofMantissa r t ∧
      r < 2 ^ 53 ∧ -1074 ≤ t ∧ (2 ^ 52 ≤ r ∨ t = -1074) ∧ IsNearest a (r * 2 ^ t) := by
  obtain ⟨r, same, least, rounded⟩ := roundWithAccuracy_cases m e accuracy
  have exponent : roundedExponent m e = max (m.log2 + e - 52) (-1074) := by
    simp only [roundedExponent]
    omega
  have full := full_of_le_exponent exponent (by omega)
  have shifted := described.shiftRight (roundedExponent m e - e).toNat
  have whole : a / 2 ^ e / 2 ^ (roundedExponent m e - e).toNat = a / 2 ^ roundedExponent m e := by
    rw [div_div, ← zpow_natCast, ← zpow_add₀ two_ne_zero, Int.toNat_of_nonneg (by omega)]
    congr 2
    omega
  rw [whole] at shifted
  have near := shifted.near
  rw [same] at near
  have floor := shifted.least
  rw [mantissa_shiftRight, mantissa_ofMantissaAndAccuracy] at floor
  generalize roundedExponent m e = t at *
  have low : -1074 ≤ t := by omega
  have scale : 2 ^ 52 ≤ a / 2 ^ t ∨ t = -1074 := by
    refine full.imp_left fun bits => ?_
    have count : (2 ^ 52 : ℝ) ≤ (m / 2 ^ (t - e).toNat : Nat) := by exact_mod_cast bits
    exact count.trans floor
  have nearest := isNearest_of_near near scale
  rcases rounded with ⟨most, rounded⟩ | ⟨carry, rounded⟩
  · exact ⟨r, t, rounded, most, low, full.imp_left fun bits => bits.trans least, nearest⟩
  · have carried : ((2 ^ 52 : Nat) : ℝ) * 2 ^ (t + 1) = r * 2 ^ t := by
      rw [carry, zpow_add₀ two_ne_zero]
      push_cast
      ring
    exact ⟨_, _, rounded, by norm_num, by omega, .inl (le_refl _), carried ▸ nearest⟩

theorem roundWithAccuracy_nearest {m : Nat} {e : Int} {accuracy : Accuracy} {a : ℝ}
    (described : Describes (.ofMantissaAndAccuracy m accuracy) (a / 2 ^ e))
    (fine : e ≤ max (m.log2 + e - 52) (-1074)) (small : a ≤ greatest) :
    Rounded a (roundWithAccuracy Format.binary64 .positive m e accuracy) := by
  obtain ⟨r, t, rounded, most, low, full, nearest⟩ := roundWithAccuracy_isNearest described fine
  have high : t ≤ 971 := by
    rcases full with large | bottom
    · -- Nothing past the greatest double is nearer than that.
      have near := (le_abs_self _).trans (nearest greatest isDouble_greatest)
      rw [abs_of_nonneg (sub_nonneg.mpr small), sub_le_sub_iff_right] at near
      apply exponent_le _ near
      rw [mul_div_cancel_right₀ _ (by positivity)]
      exact_mod_cast large
    · omega
  rw [rounded]
  refine ⟨reduced_ofMantissa most low full high, ?_⟩
  rwa [value_ofMantissa]

end SeededChoice.Double
