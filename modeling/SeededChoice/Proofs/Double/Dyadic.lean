import Mathlib
import SeededChoice.Double

/-!
# Dyadic fractions in doubles

`value?` is the exact value of a finite double. A whole number below `2 ^ 53` is a double, and its
quotient by `2 ^ 23` is one too, so neither is rounded.
-/

namespace SeededChoice.Double

open Float.Model Float.Model.UnpackedFloat

/-- The exact value of a finite double. -/
def value? (x : Float) : Option ℚ :=
  match parts x with
  | .finite negative m e => some ((if negative then -(m : ℚ) else m) * 2 ^ e)
  | _ => none

/-- The whole number and the exponent of a normal double. -/
structure Normal (m : Nat) (e : Int) : Prop where
  least : 2 ^ 52 ≤ m
  most : m < 2 ^ 53
  low : -1074 ≤ e
  high : e ≤ 971

namespace Normal

variable {m : Nat} {e : Int}

theorem pos (h : Normal m e) : 0 < m := Nat.lt_of_lt_of_le (by decide) h.least

theorem log2_eq (h : Normal m e) : m.log2 = 52 :=
  (Nat.log2_eq_iff (Nat.ne_of_gt h.pos)).mpr ⟨h.least, h.most⟩

end Normal

theorem toNat_append {k n : Nat} (x : BitVec k) (y : BitVec n) :
    (x ++ y).toNat = x.toNat * 2 ^ n + y.toNat := by
  rw [BitVec.toNat_append, ← Nat.shiftLeft_add_eq_or_of_lt y.isLt, Nat.shiftLeft_eq]

theorem unpackSign_pack (s : Sign) (exponent : BitVec 11) (fraction : BitVec 52) :
    unpackSign (packComponents Format.binary64 s exponent fraction) = s.toBitVec := by
  apply BitVec.eq_of_toNat_eq
  simp only [unpackSign, BitVec.toNat_cast, BitVec.extractLsb_toNat, packComponents, toNat_append]
  have fractionSize := fraction.isLt
  have exponentSize := exponent.isLt
  cases s
  · simp [Sign.toBitVec]
    omega
  · simp [Sign.toBitVec]
    omega

/-- The double `m · 2 ^ e`. -/
def ofNormal {m : Nat} {e : Int} (h : Normal m e) : Float :=
  .ofModel (.pack (.finite .positive m e h.pos))

section
variable {m : Nat} {e : Int} (h : Normal m e)
include h

theorem pack_normal :
    UnpackedFloat.pack Format.binary64 (.finite .positive m e h.pos) =
      packComponents Format.binary64 .positive (.ofNat 11 (e + 1075).toNat) (.ofNat 52 m) := by
  have low := h.low
  have high := h.high
  have biased : (e + 1023 + 52).toNat = (e + 1075).toNat := by omega
  have fits : ¬ 2 ^ 11 ≤ (e + 1075).toNat + 1 := by omega
  simp only [UnpackedFloat.pack, h.log2_eq, Format.exponentBias, Format.mantissaBits,
    Nat.reduceSub, Nat.reducePow, Nat.reduceAdd, Nat.cast_ofNat, biased, if_true]
  rw [if_neg (by simpa using fits)]

theorem toNat_exponent : (BitVec.ofNat 11 (e + 1075).toNat).toNat = (e + 1075).toNat := by
  have high := h.high
  rw [BitVec.toNat_ofNat, Nat.mod_eq_of_lt (by omega)]

theorem toNat_fraction : (BitVec.ofNat 52 m).toNat = m - 2 ^ 52 := by
  have least := h.least
  have most := h.most
  rw [BitVec.toNat_ofNat]
  omega

/-- The bits of a normal double: its biased exponent above its fraction. -/
theorem toNat_packed :
    (packComponents Format.binary64 .positive
      (.ofNat 11 (e + 1075).toNat) (.ofNat 52 m)).toNat = (e + 1075).toNat * 2 ^ 52 + (m - 2 ^ 52) := by
  rw [packComponents, toNat_append, toNat_append, toNat_exponent h, toNat_fraction h]
  simp [Sign.toBitVec]

theorem unpack_ofNormal : (ofNormal h).toModel.unpack = .finite .positive m e h.pos := by
  have low := h.low
  have high := h.high
  have least := h.least
  have exponent := toNat_exponent h
  have fraction := toNat_fraction h
  have notTop : BitVec.ofNat 11 (e + 1075).toNat ≠ -1#11 := by
    intro same
    have same := congrArg BitVec.toNat same
    rw [exponent] at same
    simp at same
    omega
  have notZero : BitVec.ofNat 11 (e + 1075).toNat ≠ 0#11 := by
    intro same
    have same := congrArg BitVec.toNat same
    rw [exponent] at same
    simp at same
    omega
  have whole : (1#1 ++ BitVec.ofNat 52 m).toNat = m := by
    rw [toNat_append, fraction]
    simp
    omega
  show UnpackedFloat.unpack Format.binary64 (UInt64.ofBitVec _).toBitVec = _
  rw [pack_normal h]
  simp only [UnpackedFloat.unpack, unpackExponent_packComponents, unpackMantissa_packComponents,
    unpackSign_pack, notTop, notZero, if_false, exponent, whole]
  congr 1
  · simp only [Format.exponentBias]
    omega

theorem parts_ofNormal : parts (ofNormal h) = .finite false m e := by
  have low := h.low
  have high := h.high
  have least := h.least
  have most := h.most
  have bits : (ofNormal h).toBits.toNat = (e + 1075).toNat * 2 ^ 52 + (m - 2 ^ 52) := by
    show (UInt64.ofBitVec (UnpackedFloat.pack Format.binary64 _)).toNat = _
    rw [pack_normal h, UInt64.toNat_ofBitVec, toNat_packed h]
  have positive : ¬ signBit ≤ (e + 1075).toNat * 2 ^ 52 + (m - 2 ^ 52) := by
    simp only [signBit]
    omega
  have biased : ((e + 1075).toNat * 2 ^ 52 + (m - 2 ^ 52)) / leadingBit % 2048 = (e + 1075).toNat := by
    simp only [leadingBit]
    omega
  have fraction : ((e + 1075).toNat * 2 ^ 52 + (m - 2 ^ 52)) % leadingBit = m - 2 ^ 52 := by
    simp only [leadingBit]
    omega
  have notTop : (e + 1075).toNat ≠ 2047 := by omega
  have notZero : (e + 1075).toNat ≠ 0 := by omega
  have whole : leadingBit + (m - 2 ^ 52) = m := by
    simp only [leadingBit]
    omega
  have exponent : ((e + 1075).toNat : Int) - 1075 = e := by omega
  simp only [parts, bits, positive, decide_false, biased, fraction, notTop, notZero, if_false,
    whole, exponent]

theorem value?_ofNormal : value? (ofNormal h) = some ((m : ℚ) * 2 ^ e) := by
  simp only [value?, parts_ofNormal h, Bool.false_eq_true, if_false]

end

/-! ### Exact operations -/

theorem shiftRight_exact (m k : Nat) :
    ExtendedMantissa.ofMantissaAndAccuracy (m * 2 ^ k) .exact >>> k =
      ExtendedMantissa.ofMantissaAndAccuracy m .exact := by
  induction k generalizing m with
  | zero =>
    rw [Nat.pow_zero, Nat.mul_one]
    rfl
  | succ k ih =>
    have outer : m * 2 ^ (k + 1) = m * 2 * 2 ^ k := by ring
    show ExtendedMantissa.shiftRightOne
      (ExtendedMantissa.ofMantissaAndAccuracy (m * 2 ^ (k + 1)) .exact >>> k) = _
    rw [outer, ih]
    simp [ExtendedMantissa.shiftRightOne, ExtendedMantissa.ofMantissaAndAccuracy]

theorem log2_mul_pow {m : Nat} (positive : 0 < m) (k : Nat) : (m * 2 ^ k).log2 = m.log2 + k := by
  have nonzero : m * 2 ^ k ≠ 0 := by positivity
  have bounds := (Nat.log2_eq_iff (Nat.ne_of_gt positive)).mp rfl
  rw [Nat.log2_eq_iff nonzero, pow_add, show m.log2 + k + 1 = m.log2 + 1 + k by omega, pow_add]
  exact ⟨Nat.mul_le_mul_right _ bounds.1, Nat.mul_lt_mul_of_pos_right bounds.2 (by positivity)⟩

section
variable {m : Nat} {e : Int} (h : Normal m e)
include h

/-- Zeros below the 53 bits that a double holds are dropped without rounding. -/
theorem shiftToTargetExponent_normal (k : Nat) :
    shiftToTargetExponent Format.binary64 (m * 2 ^ k) (e - k) .exact =
      (ExtendedMantissa.ofMantissaAndAccuracy m .exact, e) := by
  have low := h.low
  have target : Format.binary64.targetExponent (totalExponent (m * 2 ^ k) (e - k)) = e := by
    simp only [Format.targetExponent, totalExponent, log2_mul_pow h.pos, h.log2_eq,
      Format.mantissaBits, Format.minExponent]
    omega
  have shift : (e - (e - k)).toNat = k := by omega
  have back : e - k + k = e := by omega
  rw [shiftToTargetExponent, target, shiftToExponent, shift, shiftRight_exact, back]

theorem roundWithAccuracy_normal (k : Nat) :
    roundWithAccuracy Format.binary64 .positive (m * 2 ^ k) (e - k) .exact =
      .finite .positive m e h.pos := by
  have again := shiftToTargetExponent_normal h 0
  simp only [Nat.pow_zero, Nat.mul_one, Nat.cast_zero, sub_zero] at again
  have rounded : (ExtendedMantissa.ofMantissaAndAccuracy m .exact).roundedMantissa = m := rfl
  have mantissa : (ExtendedMantissa.ofMantissaAndAccuracy m .exact).mantissa = m := rfl
  simp only [roundWithAccuracy, shiftToTargetExponent_normal h k, rounded, again, mantissa,
    Nat.ne_of_gt h.pos, dite_false]

end

/-- Division by a power of two changes the exponent alone. -/
theorem ofNormal_div {m : Nat} {e f : Int} (h : Normal m e) (power : Normal (2 ^ 52) f)
    (result : Normal m (e - f - 52)) (room : -1021 ≤ e - f) :
    ofNormal h / ofNormal power = ofNormal result := by
  have target : min (e - f) (Format.binary64.targetExponent
      (totalExponent m e - totalExponent (2 ^ 52) f)) = e - f - 53 := by
    simp only [Format.targetExponent, totalExponent, h.log2_eq, power.log2_eq,
      Format.mantissaBits, Format.minExponent]
    omega
  have shift : (e - f - (e - f - 53)).toNat = 53 := by omega
  have whole : m <<< 53 = m * 2 ^ 1 * 2 ^ 52 := by
    rw [Nat.shiftLeft_eq]
    ring
  have quotient : m * 2 ^ 1 * 2 ^ 52 / 2 ^ 52 = m * 2 ^ 1 := Nat.mul_div_cancel _ (by decide)
  have remainder : m * 2 ^ 1 * 2 ^ 52 % 2 ^ 52 = 0 := Nat.mul_mod_left _ _
  have core : divCore Format.binary64 m e (2 ^ 52) f = (m * 2 ^ 1, e - f - 53, .exact) := by
    simp only [divCore, target, shift, whole, quotient, remainder, accuracyOfFraction, if_true]
  have rounded := roundWithAccuracy_normal result 1
  rw [show e - f - 52 - (1 : Nat) = e - f - 53 by omega] at rounded
  show Float.ofModel (.pack (UnpackedFloat.div Format.binary64
    (ofNormal h).toModel.unpack (ofNormal power).toModel.unpack)) = ofNormal result
  rw [unpack_ofNormal, unpack_ofNormal]
  show Float.ofModel (.pack (roundWithAccuracy Format.binary64 .positive
    (divCore Format.binary64 m e (2 ^ 52) f).1 (divCore Format.binary64 m e (2 ^ 52) f).2.1
    (divCore Format.binary64 m e (2 ^ 52) f).2.2)) = ofNormal result
  rw [core, rounded]
  rfl

/-- Multiplication by a power of two changes the exponent alone. -/
theorem ofNormal_mul {m : Nat} {e f : Int} (h : Normal m e) (power : Normal (2 ^ 52) f)
    (result : Normal m (e + f + 52)) : ofNormal h * ofNormal power = ofNormal result := by
  have rounded := roundWithAccuracy_normal result 52
  rw [show e + f + 52 - (52 : Nat) = e + f by omega] at rounded
  show Float.ofModel (.pack (UnpackedFloat.mul Format.binary64
    (ofNormal h).toModel.unpack (ofNormal power).toModel.unpack)) = ofNormal result
  rw [unpack_ofNormal, unpack_ofNormal]
  show Float.ofModel (.pack (roundWithAccuracy Format.binary64 .positive
    (m * 2 ^ 52) (e + f) .exact)) = ofNormal result
  rw [rounded]
  rfl

/-! ### Whole numbers -/

theorem normal_ofNat {n : Nat} (positive : 0 < n) (small : n < 2 ^ 53) :
    Normal (n * 2 ^ (52 - n.log2)) ((n.log2 : Int) - 52) := by
  have nonzero := Nat.ne_of_gt positive
  have bits : n.log2 < 53 := (Nat.log2_lt nonzero).mpr small
  have top : (n * 2 ^ (52 - n.log2)).log2 = 52 := by
    rw [log2_mul_pow positive]
    omega
  have bounds := (Nat.log2_eq_iff (by positivity)).mp top
  exact ⟨bounds.1, bounds.2, by omega, by omega⟩

theorem normal_one : Normal (2 ^ 52) (-52) := ⟨by decide, by decide, by decide, by decide⟩

/-- The double `2 ^ 23`, taken apart. -/
theorem normal_parts : Normal (2 ^ 52) (-29) := ⟨by decide, by decide, by decide, by decide⟩

theorem toFloat_toUInt64 {n : Nat} (positive : 0 < n) (small : n < 2 ^ 53) :
    n.toUInt64.toFloat = ofNormal (normal_ofNat positive small) := by
  have bits : n.log2 < 53 := (Nat.log2_lt (Nat.ne_of_gt positive)).mpr small
  have same : n.toUInt64.toNat = n := Nat.mod_eq_of_lt (Nat.lt_trans small (by decide))
  have target : Format.binary64.targetExponent (totalExponent n 0) = (n.log2 : Int) - 52 := by
    simp only [Format.targetExponent, totalExponent, Format.mantissaBits, Format.minExponent]
    omega
  have shift : (0 - ((n.log2 : Int) - 52)).toNat = 52 - n.log2 := by omega
  have exponent : (0 : Int) - (52 - n.log2 : Nat) = (n.log2 : Int) - 52 := by omega
  have rounded := roundWithAccuracy_normal (normal_ofNat positive small) 0
  simp only [Nat.pow_zero, Nat.mul_one, Nat.cast_zero, sub_zero] at rounded
  show Float.ofModel (.pack (UnpackedFloat.ofInt Format.binary64 (n.toUInt64.toNat : Int))) = _
  rw [same, UnpackedFloat.ofInt, UnpackedFloat.normalize, Int.compare_eq_gt.mpr (by omega)]
  simp only [Int.toNat_natCast, UnpackedFloat.round, target, decreaseExponent, shift, exponent,
    Nat.shiftLeft_eq, rounded]
  rfl

/-- A whole number below `2 ^ 53` is a double. -/
theorem ofNat_eq {n : Nat} (positive : 0 < n) (small : n < 2 ^ 53) :
    ofNat n = ofNormal (normal_ofNat positive small) := by
  have one : Float.exactlyRepresentablePowersOfTen[0] = ofNormal normal_one := by decide +kernel
  have bits : n.log2 < 53 := (Nat.log2_lt (Nat.ne_of_gt positive)).mpr small
  rw [ofNat, Float.ofScientific, dif_pos ⟨small, by decide⟩]
  simp only [Bool.false_eq_true, if_false, one, toFloat_toUInt64 positive small]
  have scaled : (n.log2 : Int) - 52 + -52 + 52 = (n.log2 : Int) - 52 := by omega
  rw [ofNormal_mul _ normal_one (by rw [scaled]; exact normal_ofNat positive small)]
  congr 1

/-- A whole number of parts of `2 ^ 23` is a double. -/
theorem ofNat_div {n : Nat} (positive : 0 < n) (small : n < 2 ^ 23) :
    ∃ result : Normal (n * 2 ^ (52 - n.log2)) ((n.log2 : Int) - 75),
      ofNat n / ofNat (2 ^ 23) = ofNormal result := by
  have bits : n.log2 < 23 := (Nat.log2_lt (Nat.ne_of_gt positive)).mpr small
  have fits : n < 2 ^ 53 := Nat.lt_trans small (by decide)
  have whole := normal_ofNat positive fits
  have divisor : ofNat (2 ^ 23) = ofNormal normal_parts := by decide +kernel
  have exponent : (n.log2 : Int) - 52 - -29 - 52 = (n.log2 : Int) - 75 := by omega
  have result : Normal (n * 2 ^ (52 - n.log2)) ((n.log2 : Int) - 75) :=
    ⟨whole.least, whole.most, by omega, by omega⟩
  refine ⟨result, ?_⟩
  rw [ofNat_eq positive fits, divisor, ofNormal_div whole normal_parts (exponent ▸ result) (by omega)]
  simp only [exponent]

/-- The quotient by `2 ^ 23` of a whole number below it is exact. -/
theorem value?_quotient {n : Nat} (small : n < 2 ^ 23) :
    value? (ofNat n / ofNat (2 ^ 23)) = some ((n : ℚ) / 2 ^ 23) := by
  rcases Nat.eq_zero_or_pos n with rfl | positive
  · decide +kernel
  have bits : n.log2 < 23 := (Nat.log2_lt (Nat.ne_of_gt positive)).mpr small
  obtain ⟨result, divided⟩ := ofNat_div positive small
  rw [divided, value?_ofNormal result]
  have shares : (n.log2 : Int) - 75 = -((52 - n.log2 : Nat) : Int) + -23 := by omega
  rw [shares, zpow_add₀ (by norm_num), zpow_neg, zpow_natCast]
  push_cast
  field_simp

end SeededChoice.Double
