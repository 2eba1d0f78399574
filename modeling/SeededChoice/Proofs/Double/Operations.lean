import SeededChoice.Proofs.Double.Nearest
import SeededChoice.Proofs.Scalar.Nearest

/-!
# Operations on doubles

Sums, differences, products and quotients of doubles and doubles of whole numbers are the exact
results rounded to the nearest, as long as these are not past the greatest double.
-/

namespace SeededChoice.Double

open Float.Model Float.Model.UnpackedFloat

/-! ### Whole numbers of units -/

theorem round_nearest {m : Nat} {e : Int} (positive : 0 < m)
    (small : (m : ℝ) * 2 ^ e ≤ greatest) :
    Rounded (m * 2 ^ e) (UnpackedFloat.round Format.binary64 .positive m e) := by
  simp only [UnpackedFloat.round, decreaseExponent, Nat.shiftLeft_eq]
  have bits := log2_mul_pow positive (e - Format.binary64.targetExponent (totalExponent m e)).toNat
  have target : Format.binary64.targetExponent (totalExponent m e) =
      max (m.log2 + e - 52) (-1074) := by
    simp only [Format.targetExponent, totalExponent, Format.mantissaBits, Format.minExponent]
    omega
  rw [target] at bits ⊢
  generalize shift : (e - max (m.log2 + e - 52) (-1074)).toNat = k at bits ⊢
  apply roundWithAccuracy_nearest _ (by omega) small
  have units : (m : ℝ) * 2 ^ e / 2 ^ (e - k) = ((m * 2 ^ k : Nat) : ℝ) := by
    rw [mul_div_assoc, ← zpow_sub₀ two_ne_zero, sub_sub_cancel, zpow_natCast]
    push_cast
    rfl
  rw [units]
  exact .ofExact _

theorem round_negative (m : Nat) (e : Int) :
    UnpackedFloat.round Format.binary64 .negative m e =
      (UnpackedFloat.round Format.binary64 .positive m e).neg := by
  simp only [UnpackedFloat.round, roundWithAccuracy]
  split <;> rfl

theorem normalize_nearest {k e : Int} (small : |(k : ℝ) * 2 ^ e| ≤ greatest) :
    Rounded (k * 2 ^ e) (UnpackedFloat.normalize Format.binary64 k e .positive) := by
  rw [abs_le] at small
  have unit : (0 : ℝ) < 2 ^ e := by positivity
  unfold UnpackedFloat.normalize
  rcases Int.lt_trichotomy k 0 with negative | rfl | positive
  · have count : (((-k).toNat : Nat) : ℝ) = -k := by
      exact_mod_cast Int.toNat_of_nonneg (by omega : 0 ≤ -k)
    rw [Int.compare_eq_lt.mpr negative]
    dsimp only
    rw [round_negative]
    have rounded := round_nearest (m := (-k).toNat) (e := e) (by omega) (by rw [count]; linarith)
    have opposite := rounded.neg
    rwa [count, neg_mul, neg_neg] at opposite
  · rw [Int.cast_zero, zero_mul]
    exact rounded_zero .positive
  · have count : ((k.toNat : Nat) : ℝ) = k := by
      exact_mod_cast Int.toNat_of_nonneg (by omega : 0 ≤ k)
    rw [Int.compare_eq_gt.mpr positive]
    dsimp only
    rw [← count]
    exact round_nearest (by omega) (by rw [count]; exact small.2)

/-- A number in units that are not greater than its own. -/
theorem value_units (s : Sign) {m : Nat} {e f : Int} (positive : 0 < m) (lower : f ≤ e) :
    value (.finite s m e positive) = (s.apply (m * 2 ^ (e - f).toNat : Nat) : Int) * 2 ^ f := by
  have scale : (2 : ℝ) ^ e = 2 ^ (e - f).toNat * 2 ^ f := by
    rw [← zpow_natCast, Int.toNat_of_nonneg (by omega), ← zpow_add₀ two_ne_zero, sub_add_cancel]
  cases s <;> simp only [value, Sign.apply, scale] <;> push_cast <;> ring

section
variable {u v : UnpackedFloat} (left : Reduced u) (right : Reduced v)
include left right

theorem add_nearest (small : |value u + value v| ≤ greatest) :
    Rounded (value u + value v) (UnpackedFloat.add Format.binary64 u v) := by
  cases left with
  | zero s =>
    rw [show value (.zero s) = 0 from rfl, zero_add]
    cases right with
    | zero t => cases s <;> cases t <;> exact rounded_zero _
    | finite t canonical high => exact rounded_self (.finite t canonical high)
  | @finite s m e canonical high =>
    cases right with
    | zero t =>
      rw [show value (.zero t) = 0 from rfl, add_zero]
      exact rounded_self (.finite s canonical high)
    | @finite t n f other low =>
      rw [value_units s canonical.pos (min_le_left e f), value_units t other.pos (min_le_right e f),
        ← add_mul, ← Int.cast_add] at small ⊢
      simp only [UnpackedFloat.add, decreaseExponent, Nat.shiftLeft_eq]
      exact normalize_nearest small

theorem sub_nearest (small : |value u - value v| ≤ greatest) :
    Rounded (value u - value v) (UnpackedFloat.sub Format.binary64 u v) := by
  cases left with
  | zero s =>
    rw [show value (.zero s) = 0 from rfl, zero_sub]
    cases right with
    | zero t =>
      rw [show value (.zero t) = 0 from rfl, neg_zero]
      cases s <;> cases t <;> exact rounded_zero _
    | finite t canonical high => exact (rounded_self (.finite t canonical high)).neg
  | @finite s m e canonical high =>
    cases right with
    | zero t =>
      rw [show value (.zero t) = 0 from rfl, sub_zero]
      exact rounded_self (.finite s canonical high)
    | @finite t n f other low =>
      rw [value_units s canonical.pos (min_le_left e f), value_units t other.pos (min_le_right e f),
        ← sub_mul, ← Int.cast_sub] at small ⊢
      simp only [UnpackedFloat.sub, decreaseExponent, Nat.shiftLeft_eq]
      exact normalize_nearest small

end

/-! ### Products and quotients -/

theorem roundWithAccuracy_negative (m : Nat) (e : Int) (accuracy : Accuracy) :
    roundWithAccuracy Format.binary64 .negative m e accuracy =
      (roundWithAccuracy Format.binary64 .positive m e accuracy).neg := by
  simp only [roundWithAccuracy]
  split <;> rfl

/-- The sign is put on after rounding. -/
theorem roundWithAccuracy_signed {m : Nat} {e : Int} {accuracy : Accuracy} {a : ℝ} (s : Sign)
    (rounded : Rounded a (roundWithAccuracy Format.binary64 .positive m e accuracy)) :
    Rounded (s.apply 1 * a) (roundWithAccuracy Format.binary64 s m e accuracy) := by
  cases s with
  | positive => simpa [Sign.apply] using rounded
  | negative =>
    rw [roundWithAccuracy_negative]
    simpa [Sign.apply] using rounded.neg

theorem value_signed (s : Sign) {m : Nat} (e : Int) (positive : 0 < m) :
    value (.finite s m e positive) = s.apply 1 * (m * 2 ^ e) := by
  cases s <;> simp [value, Sign.apply]

theorem apply_mul (s t : Sign) :
    (((s * t).apply 1 : Int) : ℝ) = s.apply 1 * t.apply 1 := by
  have whole : (s * t).apply 1 = s.apply 1 * t.apply 1 := by cases s <;> cases t <;> rfl
  rw [whole, Int.cast_mul]

theorem apply_div (s t : Sign) :
    (((s / t).apply 1 : Int) : ℝ) = s.apply 1 / t.apply 1 := by
  have whole : (s / t).apply 1 = s.apply 1 * t.apply 1 := by cases s <;> cases t <;> rfl
  have inverse : ((t.apply 1 : Int) : ℝ)⁻¹ = t.apply 1 := by cases t <;> simp [Sign.apply]
  rw [whole, Int.cast_mul, div_eq_mul_inv, inverse]

theorem abs_apply (s : Sign) : |((s.apply 1 : Int) : ℝ)| = 1 := by
  cases s <;> simp [Sign.apply]

/-- The quotient is computed with bits enough for a mantissa. -/
theorem divCore_full {m n : Nat} {e f : Int} (numerator : 0 < m) (divisor : 0 < n) :
    (divCore Format.binary64 m e n f).2.1 ≤
      max ((divCore Format.binary64 m e n f).1.log2 + (divCore Format.binary64 m e n f).2.1 - 52)
        (-1074) := by
  have target : Format.binary64.targetExponent (totalExponent m e - totalExponent n f) =
      max (m.log2 - n.log2 + e - f - 53) (-1074) := by
    simp only [Format.targetExponent, totalExponent, Format.mantissaBits, Format.minExponent]
    omega
  simp only [divCore, target, Nat.shiftLeft_eq]
  generalize exponent : min (e - f) (max (m.log2 - n.log2 + e - f - 53) (-1074) : Int) = t
  by_cases low : t ≤ -1074
  · omega
  have bits : n.log2 + 53 ≤ m.log2 + (e - f - t).toNat := by omega
  have quotient : 2 ^ 52 ≤ m * 2 ^ (e - f - t).toNat / n := by
    rw [Nat.le_div_iff_mul_le divisor]
    calc 2 ^ 52 * n ≤ 2 ^ 52 * 2 ^ (n.log2 + 1) := Nat.mul_le_mul_left _ Nat.lt_log2_self.le
      _ = 2 ^ (n.log2 + 53) := by ring
      _ ≤ 2 ^ (m.log2 + (e - f - t).toNat) := Nat.pow_le_pow_right (by norm_num) bits
      _ = 2 ^ m.log2 * 2 ^ (e - f - t).toNat := pow_add _ _ _
      _ ≤ m * 2 ^ (e - f - t).toNat := Nat.mul_le_mul_right _ (Nat.log2_self_le numerator.ne')
  have top := (Nat.le_log2 (Nat.ne_of_gt (Nat.lt_of_lt_of_le (Nat.two_pow_pos 52) quotient))).mpr quotient
  omega

theorem divCore_describes {m n : Nat} {e f : Int} (divisor : 0 < n) :
    Describes (.ofMantissaAndAccuracy (divCore Format.binary64 m e n f).1
        (divCore Format.binary64 m e n f).2.2)
      (m * 2 ^ e / (n * 2 ^ f) / 2 ^ (divCore Format.binary64 m e n f).2.1) := by
  have lower : (divCore Format.binary64 m e n f).2.1 ≤ e - f := min_le_left _ _
  have shift : (2 : ℝ) ^ (e - f - (divCore Format.binary64 m e n f).2.1).toNat =
      2 ^ e / 2 ^ f / 2 ^ (divCore Format.binary64 m e n f).2.1 := by
    rw [← zpow_natCast, Int.toNat_of_nonneg (by omega), zpow_sub₀ two_ne_zero,
      zpow_sub₀ two_ne_zero]
  have units : (m : ℝ) * 2 ^ e / (n * 2 ^ f) / 2 ^ (divCore Format.binary64 m e n f).2.1 =
      ((m <<< (e - f - (divCore Format.binary64 m e n f).2.1).toNat : Nat) : ℝ) / n := by
    rw [Nat.shiftLeft_eq, Nat.cast_mul, Nat.cast_pow, Nat.cast_ofNat, shift]
    field_simp
  rw [units]
  exact .ofFraction divisor

/-- The mantissa of a product is long enough, except in units too small for any double. -/
theorem mul_fine {m n : Nat} {e f : Int} (left : Canonical m e) (right : Canonical n f) :
    e + f ≤ max ((m * n).log2 + (e + f) - 52) (-1074) := by
  have first := left.full
  have second := right.full
  by_cases bottom : e = -1074 ∧ f = -1074
  · omega
  have wide : 2 ^ 52 ≤ m * n := by
    rcases first with large | tiny
    · exact large.trans (Nat.le_mul_of_pos_right m right.pos)
    · have large := second.resolve_right fun same => bottom ⟨tiny, same⟩
      exact large.trans (Nat.le_mul_of_pos_left n left.pos)
  have top := (Nat.le_log2 (Nat.mul_pos left.pos right.pos).ne').mpr wide
  omega

section
variable {u v : UnpackedFloat} (left : Reduced u) (right : Reduced v)
include left right

theorem mul_nearest (small : |value u * value v| ≤ greatest) :
    Rounded (value u * value v) (UnpackedFloat.mul Format.binary64 u v) := by
  cases left with
  | zero s =>
    rw [show value (.zero s) = 0 from rfl, zero_mul]
    cases right <;> exact rounded_zero _
  | @finite s m e canonical high =>
    cases right with
    | zero t =>
      rw [show value (.zero t) = 0 from rfl, mul_zero]
      exact rounded_zero _
    | @finite t n f other low =>
      have product : value (.finite s m e canonical.pos) * value (.finite t n f other.pos) =
          (s * t).apply 1 * ((m * n : Nat) * 2 ^ (e + f)) := by
        rw [value_signed, value_signed, apply_mul, zpow_add₀ two_ne_zero]
        push_cast
        ring
      rw [product] at small ⊢
      rw [abs_mul, abs_apply, one_mul, abs_of_nonneg (by positivity)] at small
      apply roundWithAccuracy_signed
      apply roundWithAccuracy_nearest _ _ small
      · rw [mul_div_cancel_right₀ _ (by positivity)]
        exact .ofExact _
      · exact mul_fine canonical other

theorem div_nearest (nonzero : value v ≠ 0) (small : |value u / value v| ≤ greatest) :
    Rounded (value u / value v) (UnpackedFloat.div Format.binary64 u v) := by
  cases right with
  | zero t => exact absurd rfl nonzero
  | @finite t n f other low =>
    cases left with
    | zero s =>
      rw [show value (.zero s) = 0 from rfl, zero_div]
      exact rounded_zero _
    | @finite s m e canonical high =>
      have quotient : value (.finite s m e canonical.pos) / value (.finite t n f other.pos) =
          (s / t).apply 1 * (m * 2 ^ e / (n * 2 ^ f)) := by
        rw [value_signed, value_signed, apply_div, mul_div_mul_comm]
      rw [quotient] at small ⊢
      rw [abs_mul, abs_apply, one_mul, abs_of_nonneg (by positivity)] at small
      apply roundWithAccuracy_signed
      apply roundWithAccuracy_nearest _ (divCore_full canonical.pos other.pos) small
      exact divCore_describes other.pos

end

/-! ### Whole numbers -/

theorem ofScientific_eq {n : Nat} (positive : 0 < n) :
    UnpackedFloat.ofScientific Format.binary64 n 0 =
      UnpackedFloat.round Format.binary64 .positive (n * 2 ^ 53) (-53) := by
  have bits : (n * 2 ^ 53).log2 = n.log2 + 53 := log2_mul_pow positive 53
  have above : ¬ (0 : Int) < -(2 ^ 11 + n.log2) := by omega
  rw [round_unshifted (by omega)]
  unfold UnpackedFloat.ofScientific
  rw [dif_neg positive.ne', if_neg (by norm_num), if_neg above, if_pos (le_refl _)]
  have signs : Sign.positive * .positive = .positive := rfl
  simp only [UnpackedFloat.mul, signs, Format.mantissaBits, Nat.shiftLeft_eq, Int.toNat_zero,
    pow_zero, Nat.mul_one, add_zero]
  rfl

theorem ofScientific_nearest {n : Nat} (positive : 0 < n) (small : (n : ℝ) ≤ greatest) :
    Rounded n (UnpackedFloat.ofScientific Format.binary64 n 0) := by
  have units : ((n * 2 ^ 53 : Nat) : ℝ) * 2 ^ (-53 : Int) = n := by
    rw [zpow_neg, ← div_eq_mul_inv, div_eq_iff (by positivity)]
    norm_cast
  have rounded := round_nearest (e := -53) (Nat.mul_pos positive (Nat.two_pow_pos 53))
    (units.trans_le small)
  rwa [units, ← ofScientific_eq positive] at rounded

/-- Whole numbers of more bits than a mantissa are rounded. -/
theorem unpack_ofNat {n : Nat} (large : 2 ^ 53 ≤ n) : (ofNat n).toModel.unpack =
    (Float.Model.pack (UnpackedFloat.ofScientific Format.binary64 n 0)).unpack := by
  rw [ofNat, Float.ofScientific, dif_neg fun fast => absurd fast.1 (not_lt.mpr large)]
  rfl

theorem ofNat_nearest {n : Nat} (small : (n : ℝ) ≤ greatest) :
    Rounded n (ofNat n).toModel.unpack := by
  rcases Nat.eq_zero_or_pos n with rfl | positive
  · have zero : (ofNat 0).toModel.unpack = .zero .positive := rfl
    rw [zero, Nat.cast_zero]
    exact rounded_zero .positive
  by_cases short : n < 2 ^ 53
  · have normal := normal_ofNat positive short
    have exact : value (.finite .positive (n * 2 ^ (52 - n.log2)) (n.log2 - 52) normal.pos) = n := by
      have bits : n.log2 < 53 := (Nat.log2_lt positive.ne').mpr short
      have shift : (n.log2 : Int) - 52 = -((52 - n.log2 : Nat) : Int) := by omega
      simp only [value, Sign.apply, shift, zpow_neg, zpow_natCast]
      push_cast
      field_simp
    rw [ofNat_eq positive short, unpack_ofNormal]
    have rounded := rounded_self (.finite .positive
      ⟨normal.pos, normal.most, normal.low, .inl normal.least⟩ normal.high)
    rwa [exact] at rounded
  · have rounded := ofScientific_nearest positive small
    rwa [unpack_ofNat (not_lt.mp short), rounded.1.unpack_pack]

/-! ### Order -/

theorem Canonical.value_lt {m n : Nat} {e f : Int} (left : Canonical m e) (right : Canonical n f)
    (less : e < f ∨ e = f ∧ m < n) : (m : ℝ) * 2 ^ e < n * 2 ^ f := by
  rcases less with lower | ⟨rfl, less⟩
  · have full : 2 ^ 52 ≤ n := by
      have low := left.low
      exact right.full.resolve_right (by omega)
    have most := left.most
    calc (m : ℝ) * 2 ^ e < 2 ^ 53 * 2 ^ e := by
          apply mul_lt_mul_of_pos_right _ (by positivity)
          exact_mod_cast most
      _ = 2 ^ 52 * 2 ^ (e + 1) := by
          rw [zpow_add₀ two_ne_zero]
          ring
      _ ≤ n * 2 ^ f := by
          apply mul_le_mul _ (zpow_le_zpow_right₀ one_le_two lower) (by positivity) (by positivity)
          exact_mod_cast full
  · apply mul_lt_mul_of_pos_right _ (by positivity)
    exact_mod_cast less

/-- The values of doubles are ordered as the doubles are. -/
theorem value_lt_of_rank_lt {u v : UnpackedFloat} (left : Reduced u) (right : Reduced v)
    (less : rank u < rank v) : value u < value v := by
  have size {m : Nat} {e : Int} (canonical : Canonical m e) : (0 : ℝ) < m * 2 ^ e := by
    have positive := canonical.pos
    positivity
  have negative {m : Nat} {e : Int} (positive : 0 < m) :
      value (.finite .negative m e positive) = -(m * 2 ^ e) := by
    simp [value, Sign.apply]
  have positive {m : Nat} {e : Int} (positive : 0 < m) :
      value (.finite .positive m e positive) = m * 2 ^ e := by
    simp [value, Sign.apply]
  have zero (s : Sign) : value (.zero s) = 0 := rfl
  rcases left with s | ⟨_ | _, first, -⟩ <;> rcases right with t | ⟨_ | _, second, -⟩ <;>
    simp [rank, Prod.Lex.lt_iff] at less
  · rw [zero, positive]
    exact size second
  · rw [zero, negative]
    exact neg_lt_zero.mpr (size first)
  · rw [negative, negative]
    exact neg_lt_neg (second.value_lt first (by omega))
  · rw [negative, positive]
    exact (neg_lt_zero.mpr (size first)).trans (size second)
  · rw [positive, positive]
    exact first.value_lt second (by omega)

theorem value_eq_of_rank_eq {u v : UnpackedFloat} (left : Reduced u) (right : Reduced v)
    (same : rank u = rank v) : value u = value v := by
  rcases left with s | ⟨_ | _, first, -⟩ <;> rcases right with t | ⟨_ | _, second, -⟩ <;>
    simp [rank] at same
  · rfl
  · obtain ⟨rfl, rfl⟩ := same
    rfl
  · obtain ⟨rfl, rfl⟩ := same
    rfl

theorem rank_le_iff {u v : UnpackedFloat} (left : Reduced u) (right : Reduced v) :
    rank u ≤ rank v ↔ value u ≤ value v := by
  constructor
  · intro least
    rcases least.lt_or_eq with less | same
    · exact (value_lt_of_rank_lt left right less).le
    · exact (value_eq_of_rank_eq left right same).le
  · intro least
    by_contra more
    exact absurd least (value_lt_of_rank_lt right left (not_le.mp more)).not_ge

theorem Reduced.number {u : UnpackedFloat} (reduced : Reduced u) : u ≠ .notANumber := by
  cases reduced <;> exact nofun

theorem le_iff_value {x y : Float} (left : x.toModel.unpack.isFinite = true)
    (right : y.toModel.unpack.isFinite = true) :
    x ≤ y ↔ value x.toModel.unpack ≤ value y.toModel.unpack := by
  have first := reduced_of_isFinite left
  have second := reduced_of_isFinite right
  rw [le_iff, le_iff_rank, rank_le_iff first second]
  exact ⟨fun least => least.2.2, fun least => ⟨first.number, second.number, least⟩⟩

/-- Between finite doubles there are finite ones only. -/
theorem isFinite_between {x y z : Float} (lower : x.toModel.unpack.isFinite = true)
    (upper : z.toModel.unpack.isFinite = true) (least : x ≤ y) (most : y ≤ z) :
    y.toModel.unpack.isFinite = true := by
  rw [le_iff, le_iff_rank] at least most
  have first := reduced_of_isFinite lower
  have second := reduced_of_isFinite upper
  generalize x.toModel.unpack = u at *
  generalize y.toModel.unpack = v at *
  generalize z.toModel.unpack = w at *
  cases v with
  | notANumber => exact absurd rfl most.1
  | zero s => rfl
  | finite s m e positive => rfl
  | infinity s =>
    cases s with
    | negative =>
      rcases first with s | ⟨_ | _, canonical, -⟩ <;>
        simp [rank, Prod.Lex.le_iff] at least
    | positive =>
      rcases second with s | ⟨_ | _, canonical, -⟩ <;>
        simp [rank, Prod.Lex.le_iff] at most

/-! ### Doubles are rounded to the nearest -/

/-- Packing a rounded result changes nothing, so the result is the nearest double. -/
theorem Rounded.unpacked {a : ℝ} {u v : UnpackedFloat} (rounded : Rounded a u)
    (packed : v = (Float.Model.pack u).unpack) : Rounded a v := by
  rwa [packed, rounded.1.unpack_pack]

theorem IsDouble.double {x : ℝ} (double : IsDouble x) : IsDouble (2 * x) := by
  obtain ⟨k, e, bits, low, rfl⟩ := double
  refine ⟨k, e + 1, bits, by omega, ?_⟩
  rw [zpow_add₀ two_ne_zero]
  ring

/-- A double is rounded to itself. -/
theorem Rounded.value_eq {a : ℝ} {u : UnpackedFloat} (rounded : Rounded a u) (double : IsDouble a) :
    value u = a := by
  have near := rounded.2 a double
  rw [sub_self, abs_zero] at near
  exact sub_eq_zero.mp (abs_nonpos_iff.mp near)

end SeededChoice.Double

namespace SeededChoice

open Double

noncomputable instance : HasValue Float where
  value x := Double.value x.toModel.unpack

theorem Double.Rounded.isNearest {a : ℝ} {x : Float} (rounded : Rounded a x.toModel.unpack) :
    Scalar.IsNearest a x :=
  ⟨rounded.1.isFinite, fun _ finite => rounded.2 _ (reduced_of_isFinite finite).isDouble⟩

theorem Double.limit_le : Scalar.limit ≤ greatest :=
  (zpow_ofNat (2 : ℝ) 1000).symm.trans_le (two_pow_le_greatest (by norm_num))

instance : NearestScalar Float where
  value_zero := rfl
  value_one := by
    have one : (One.one : Float) = ofNormal normal_one := by decide +kernel
    show Double.value (One.one : Float).toModel.unpack = 1
    rw [one, unpack_ofNormal, Double.value]
    norm_num [Float.Model.UnpackedFloat.Sign.apply]
  le_iff := le_iff_value
  isFinite_between := isFinite_between
  neg finite := by
    have reduced := reduced_of_isFinite finite
    have rounded := (rounded_self reduced).neg.unpacked (v := (-_ : Float).toModel.unpack) rfl
    exact ⟨rounded.1.isFinite, rounded.value_eq reduced.isDouble.neg⟩
  double finite small := by
    have reduced := reduced_of_isFinite finite
    rw [two_mul] at small
    have rounded := (add_nearest reduced reduced (small.trans limit_le)).unpacked rfl
    rw [← two_mul] at rounded
    exact rounded.value_eq reduced.isDouble.double
  ofNat small := (ofNat_nearest (small.trans limit_le)).isNearest
  add left right small :=
    ((add_nearest (reduced_of_isFinite left) (reduced_of_isFinite right)
      (small.trans limit_le)).unpacked rfl).isNearest
  sub left right small :=
    ((sub_nearest (reduced_of_isFinite left) (reduced_of_isFinite right)
      (small.trans limit_le)).unpacked rfl).isNearest
  mul left right small :=
    ((mul_nearest (reduced_of_isFinite left) (reduced_of_isFinite right)
      (small.trans limit_le)).unpacked rfl).isNearest
  div left right nonzero small :=
    ((div_nearest (reduced_of_isFinite left) (reduced_of_isFinite right) nonzero
      (small.trans limit_le)).unpacked rfl).isNearest

end SeededChoice
