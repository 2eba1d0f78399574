import SeededChoice.Proofs.Double.Order
import SeededChoice.Proofs.Scalar.Ascending
import SeededChoice.Proofs.Scalar.Ordered

/-!
# Rounding keeps order

Rounding goes to the exponent that the magnitude of a result asks for, and never below the mantissa
cut off there. So a sum of doubles that are not negative is at least each of them, and a quotient
of such a double by a greater one is no infinity.
-/

namespace SeededChoice.Double

open Float.Model Float.Model.UnpackedFloat

theorem mantissa_shiftRight (em : ExtendedMantissa) (k : Nat) :
    (em >>> k).mantissa = em.mantissa / 2 ^ k := by
  induction k with
  | zero =>
    rw [Nat.pow_zero, Nat.div_one]
    rfl
  | succ k ih =>
    show (em >>> k).mantissa / 2 = _
    rw [ih, Nat.div_div_eq_div_mul, Nat.pow_succ]

theorem roundedMantissa_bounds (em : ExtendedMantissa) :
    em.mantissa ≤ em.roundedMantissa ∧ em.roundedMantissa ≤ em.mantissa + 1 := by
  rcases em with ⟨m, _ | _, _ | _⟩ <;>
    simp [ExtendedMantissa.roundedMantissa, ExtendedMantissa.accuracy, Accuracy.roundToNearestEven]
  omega

theorem mantissa_ofMantissaAndAccuracy (m : Nat) (accuracy : Accuracy) :
    (ExtendedMantissa.ofMantissaAndAccuracy m accuracy).mantissa = m := by
  rcases accuracy with _ | _ | _ | _ <;> rfl

/-- The exponent that a number is rounded at. -/
def roundedExponent (m : Nat) (e : Int) : Int :=
  max e (max (m.log2 + e - 52) (-1074))

theorem shiftToTargetExponent_eq (m : Nat) (e : Int) (accuracy : Accuracy) :
    shiftToTargetExponent Format.binary64 m e accuracy =
      (ExtendedMantissa.ofMantissaAndAccuracy m accuracy >>> (roundedExponent m e - e).toNat,
        roundedExponent m e) := by
  have shift : (Format.binary64.targetExponent (totalExponent m e) - e).toNat =
      (roundedExponent m e - e).toNat := by
    simp only [Format.targetExponent, totalExponent, Format.mantissaBits, Format.minExponent,
      roundedExponent]
    omega
  have reached : e + (roundedExponent m e - e).toNat = roundedExponent m e := by
    simp only [roundedExponent]
    omega
  rw [shiftToTargetExponent, shiftToExponent, shift, reached]

theorem mantissa_small (m : Nat) (e : Int) :
    m / 2 ^ (roundedExponent m e - e).toNat < 2 ^ 53 := by
  apply Nat.div_lt_of_lt_mul
  rw [← Nat.pow_add]
  apply Nat.lt_of_lt_of_le Nat.lt_log2_self
  apply Nat.pow_le_pow_right (by decide)
  simp only [roundedExponent]
  omega

/-- The number `m · 2 ^ e`, or a positive zero. -/
def ofMantissa (m : Nat) (e : Int) : UnpackedFloat :=
  if zero : m = 0 then .zero .positive else .finite .positive m e (Nat.pos_of_ne_zero zero)

theorem ofMantissa_pos {m : Nat} (positive : 0 < m) (e : Int) :
    ofMantissa m e = .finite .positive m e positive := dif_neg (Nat.ne_of_gt positive)

theorem roundWithAccuracy_eq (m : Nat) (e : Int) (accuracy : Accuracy) :
    roundWithAccuracy Format.binary64 .positive m e accuracy =
      ofMantissa
        (shiftToTargetExponent Format.binary64
          (shiftToTargetExponent Format.binary64 m e accuracy).1.roundedMantissa
          (shiftToTargetExponent Format.binary64 m e accuracy).2 .exact).1.mantissa
        (shiftToTargetExponent Format.binary64
          (shiftToTargetExponent Format.binary64 m e accuracy).1.roundedMantissa
          (shiftToTargetExponent Format.binary64 m e accuracy).2 .exact).2 := rfl

/-- A number is rounded to a mantissa of 53 bits at most; a carry out of these moves the exponent. -/
theorem roundWithAccuracy_cases (m : Nat) (e : Int) (accuracy : Accuracy) :
    ∃ r, (ExtendedMantissa.ofMantissaAndAccuracy m accuracy >>>
        (roundedExponent m e - e).toNat).roundedMantissa = r ∧
      m / 2 ^ (roundedExponent m e - e).toNat ≤ r ∧
      (r < 2 ^ 53 ∧ roundWithAccuracy Format.binary64 .positive m e accuracy =
          ofMantissa r (roundedExponent m e) ∨
        r = 2 ^ 53 ∧ roundWithAccuracy Format.binary64 .positive m e accuracy =
          ofMantissa (2 ^ 52) (roundedExponent m e + 1)) := by
  have cut := mantissa_small m e
  have bounds := roundedMantissa_bounds
    (ExtendedMantissa.ofMantissaAndAccuracy m accuracy >>> (roundedExponent m e - e).toNat)
  rw [mantissa_shiftRight, mantissa_ofMantissaAndAccuracy] at bounds
  have low : -1074 ≤ roundedExponent m e := by
    simp only [roundedExponent]
    omega
  rw [roundWithAccuracy_eq, shiftToTargetExponent_eq m e accuracy]
  dsimp only
  generalize (ExtendedMantissa.ofMantissaAndAccuracy m accuracy >>>
    (roundedExponent m e - e).toNat).roundedMantissa = r at bounds ⊢
  generalize roundedExponent m e = t at low bounds cut ⊢
  refine ⟨r, rfl, bounds.1, ?_⟩
  rw [shiftToTargetExponent_eq r t, mantissa_shiftRight, mantissa_ofMantissaAndAccuracy]
  by_cases small : r < 2 ^ 53
  · have same : roundedExponent r t = t := by
      have bits : r.log2 < 53 := by
        rcases Nat.eq_zero_or_pos r with rfl | positive
        · decide
        · exact (Nat.log2_lt (Nat.ne_of_gt positive)).mpr small
      simp only [roundedExponent]
      omega
    left
    rw [same, Int.sub_self, Int.toNat_zero, Nat.pow_zero, Nat.div_one]
    exact ⟨small, rfl⟩
  · obtain rfl : r = 2 ^ 53 := by omega
    have carried : roundedExponent (2 ^ 53) t = t + 1 := by
      simp only [roundedExponent, Nat.log2_two_pow]
      omega
    have shift : (t + 1 - t).toNat = 1 := by omega
    right
    rw [carried, shift]
    exact ⟨rfl, rfl⟩

/-! ### Sums -/

theorem log2_mono {m n : Nat} (less : m ≤ n) : m.log2 ≤ n.log2 := by
  rw [Nat.log2_eq_log_two, Nat.log2_eq_log_two]
  exact Nat.log_mono_right less

/-- A number that is at least a double is rounded at no lower an exponent. -/
theorem Canonical.le_exponent {m n : Nat} {e f : Int} (canonical : Canonical m e)
    (lower : f ≤ e) (more : m * 2 ^ (e - f).toNat ≤ n) : e ≤ max (n.log2 + f - 52) (-1074) := by
  have bits := log2_mono more
  rw [log2_mul_pow canonical.pos] at bits
  rcases canonical.full with full | bottom
  · have top : 52 ≤ m.log2 := (Nat.le_log2 (Nat.ne_of_gt canonical.pos)).mpr full
    omega
  · omega

theorem full_of_le_exponent {n : Nat} {f t : Int} (exponent : t = max (n.log2 + f - 52) (-1074))
    (lower : f ≤ t) : 2 ^ 52 ≤ n / 2 ^ (t - f).toNat ∨ t = -1074 := by
  by_cases bottom : t = -1074
  · exact Or.inr bottom
  have bits : 52 + (t - f).toNat = n.log2 := by omega
  have nonzero : n ≠ 0 := by
    rintro rfl
    simp at bits
  left
  rw [Nat.le_div_iff_mul_le (Nat.two_pow_pos _), ← Nat.pow_add, bits]
  exact Nat.log2_self_le nonzero

/-- A number that is rounded at an exponent no lower than its own is not shifted first. -/
theorem round_unshifted {n : Nat} {f : Int} (low : f ≤ max (n.log2 + f - 52) (-1074)) :
    UnpackedFloat.round Format.binary64 .positive n f =
      roundWithAccuracy Format.binary64 .positive n f .exact := by
  have shift : (f - Format.binary64.targetExponent (totalExponent n f)).toNat = 0 := by
    simp only [Format.targetExponent, totalExponent, Format.mantissaBits, Format.minExponent]
    omega
  simp [UnpackedFloat.round, decreaseExponent, shift]

theorem round_reaches {m n : Nat} {e f : Int} (canonical : Canonical m e) (lower : f ≤ e)
    (more : m * 2 ^ (e - f).toNat ≤ n) :
    ∃ r t, UnpackedFloat.round Format.binary64 .positive n f = ofMantissa r t ∧
      Canonical r t ∧ (e < t ∨ e = t ∧ m ≤ r) := by
  have reached := canonical.le_exponent lower more
  have exponent : roundedExponent n f = max (n.log2 + f - 52) (-1074) := by
    simp only [roundedExponent]
    omega
  have unshifted := round_unshifted (lower.trans reached)
  obtain ⟨r, -, least, rounded⟩ := roundWithAccuracy_cases n f .exact
  have full := full_of_le_exponent exponent (by omega)
  generalize roundedExponent n f = t at *
  rw [unshifted]
  rcases rounded with ⟨most, rounded⟩ | ⟨rfl, rounded⟩
  · have above : e < t ∨ e = t ∧ m ≤ r := by
      rcases Int.lt_or_eq_of_le (exponent ▸ reached) with less | rfl
      · exact Or.inl less
      · have part := (Nat.le_div_iff_mul_le (Nat.two_pow_pos _)).mpr more
        exact Or.inr ⟨rfl, Nat.le_trans part least⟩
    have low := canonical.low
    have positive := canonical.pos
    exact ⟨r, t, rounded, ⟨by omega, most, by omega, by omega⟩, above⟩
  · exact ⟨_, _, rounded, ⟨by decide, by decide, by omega, Or.inl (by decide)⟩, by omega⟩

/-- The sum of two positive doubles, before packing, is at least the first. -/
theorem add_reaches {m n : Nat} {e f : Int} (left : Canonical m e) (right : Canonical n f) :
    ∃ r t, UnpackedFloat.add Format.binary64 (.finite .positive m e left.pos)
        (.finite .positive n f right.pos) = ofMantissa r t ∧
      Canonical r t ∧ (e < t ∨ e = t ∧ m ≤ r) := by
  have more : m * 2 ^ (e - min e f).toNat ≤
      m * 2 ^ (e - min e f).toNat + n * 2 ^ (f - min e f).toNat := Nat.le_add_right _ _
  have lower : min e f ≤ e := by omega
  have added : UnpackedFloat.add Format.binary64 (.finite .positive m e left.pos)
      (.finite .positive n f right.pos) = UnpackedFloat.round Format.binary64 .positive
        (m * 2 ^ (e - min e f).toNat + n * 2 ^ (f - min e f).toNat) (min e f) := by
    have positive : 0 < m * 2 ^ (e - min e f).toNat :=
      Nat.mul_pos left.pos (Nat.two_pow_pos _)
    simp only [UnpackedFloat.add, decreaseExponent, Sign.apply, Nat.shiftLeft_eq, ← Nat.cast_add]
    rw [UnpackedFloat.normalize, Int.compare_eq_gt.mpr (by omega)]
    rfl
  rw [added]
  exact round_reaches left lower more

theorem le_packed {m r : Nat} {e t : Int} (positive : 0 < m) (canonical : Canonical r t)
    (above : e < t ∨ e = t ∧ m ≤ r) :
    (UnpackedFloat.finite .positive m e positive).le
      (Float.Model.pack (ofMantissa r t)).unpack = true := by
  rw [ofMantissa_pos canonical.pos, le_iff_rank]
  by_cases high : t ≤ 971
  · rw [unpack_pack canonical high]
    simp [rank, Prod.Lex.le_iff, above]
  · rw [unpack_pack_overflow canonical.pos (by omega)]
    simp [rank, Prod.Lex.le_iff]

theorem Natural.le_infinity {u : UnpackedFloat} (natural : Natural u) :
    u.le (Float.Model.pack (.infinity .positive)).unpack = true := by
  have kept : (Float.Model.pack (.infinity .positive)).unpack = .infinity .positive := rfl
  rw [kept, le_iff_rank]
  cases natural <;> simp [rank, Prod.Lex.le_iff]

/-- Adding a zero to a double, or another double. -/
theorem le_add {x y : Float} (left : Natural x.toModel.unpack) (right : Natural y.toModel.unpack) :
    x.toModel.unpack.le (x + y).toModel.unpack = true := by
  have added : (x + y).toModel.unpack = (Float.Model.pack (UnpackedFloat.add Format.binary64
    x.toModel.unpack y.toModel.unpack)).unpack := rfl
  have leftCanonical {s m e positive} (unpacked : x.toModel.unpack = .finite s m e positive) :
    Canonical m e ∧ e ≤ 971 := unpack_finite unpacked
  have rightCanonical {s m e positive} (unpacked : y.toModel.unpack = .finite s m e positive) :
    Canonical m e ∧ e ≤ 971 := unpack_finite unpacked
  rw [added]
  generalize x.toModel.unpack = u at *
  generalize y.toModel.unpack = v at *
  cases left with
  | zero s =>
    cases right with
    | zero t => cases s <;> cases t <;> rfl
    | infinity => exact (Natural.zero s).le_infinity
    | @finite m e positive =>
      obtain ⟨canonical, high⟩ := rightCanonical rfl
      show (UnpackedFloat.zero s).le (Float.Model.pack (.finite .positive m e positive)).unpack = true
      rw [unpack_pack canonical high, zero_le_iff]
      exact .finite positive
  | infinity => cases right <;> exact Natural.infinity.le_infinity
  | @finite m e positive =>
    obtain ⟨canonical, high⟩ := leftCanonical rfl
    cases right with
    | zero t =>
      have kept := le_packed positive canonical (Or.inr ⟨rfl, Nat.le_refl m⟩)
      rwa [ofMantissa_pos positive] at kept
    | infinity => exact (Natural.finite positive).le_infinity
    | finite other =>
      obtain ⟨r, t, rounded, result, above⟩ := add_reaches canonical (rightCanonical rfl).1
      rw [rounded]
      exact le_packed positive result above

/-- Adding a zero of either sign. -/
theorem add_zero_le {x y : Float} {s : Sign} (left : Natural x.toModel.unpack)
    (right : y.toModel.unpack = .zero s) :
    (x + y).toModel.unpack.le x.toModel.unpack = true := by
  have added : (x + y).toModel.unpack = (Float.Model.pack (UnpackedFloat.add Format.binary64
    x.toModel.unpack y.toModel.unpack)).unpack := rfl
  have leftCanonical {t m e positive} (unpacked : x.toModel.unpack = .finite t m e positive) :
    Canonical m e ∧ e ≤ 971 := unpack_finite unpacked
  rw [added, right]
  generalize x.toModel.unpack = u at *
  cases left with
  | zero t => cases s <;> cases t <;> rfl
  | infinity => cases s <;> rfl
  | @finite m e positive =>
    obtain ⟨canonical, high⟩ := leftCanonical rfl
    show (Float.Model.pack (.finite .positive m e positive)).unpack.le _ = true
    rw [unpack_pack canonical high, le_iff_rank]
    exact ⟨nofun, nofun, le_refl _⟩

theorem unpacked_add_comm (u v : UnpackedFloat) :
    UnpackedFloat.add Format.binary64 u v = UnpackedFloat.add Format.binary64 v u := by
  cases u <;> cases v <;> simp [UnpackedFloat.add, decreaseExponent, min_comm, Int.add_comm]
  · rename_i s t
    cases s <;> cases t <;> rfl
  · rename_i s t
    cases s <;> cases t <;> rfl

theorem float_add_comm (x y : Float) : x + y = y + x := by
  show Float.ofModel (.pack (UnpackedFloat.add Format.binary64 x.toModel.unpack y.toModel.unpack)) =
    Float.ofModel (.pack (UnpackedFloat.add Format.binary64 y.toModel.unpack x.toModel.unpack))
  rw [unpacked_add_comm]

/-! ### Quotients -/

/-- A quotient by a number of no smaller exponent has no large exponent. -/
theorem div_bounded {m n : Nat} {e f : Int} (positive : 0 < m) (divisor : 0 < n)
    (small : m < 2 ^ 53) (lower : e ≤ f) :
    ∃ r t, UnpackedFloat.div Format.binary64 (.finite .positive m e positive)
      (.finite .positive n f divisor) = ofMantissa r t ∧ t ≤ 971 := by
  have divided : UnpackedFloat.div Format.binary64 (.finite .positive m e positive)
      (.finite .positive n f divisor) = roundWithAccuracy Format.binary64 .positive
        (divCore Format.binary64 m e n f).1 (divCore Format.binary64 m e n f).2.1
        (divCore Format.binary64 m e n f).2.2 := rfl
  have bound : roundedExponent (divCore Format.binary64 m e n f).1
      (divCore Format.binary64 m e n f).2.1 ≤ 970 := by
    dsimp only [divCore]
    generalize Format.binary64.targetExponent (totalExponent m e - totalExponent n f) = target
    have quotient : m <<< (e - f - min (e - f) target).toNat / n ≤
        m * 2 ^ (e - f - min (e - f) target).toNat := by
      rw [Nat.shiftLeft_eq]
      exact Nat.div_le_self _ _
    have bits := log2_mono quotient
    rw [log2_mul_pow positive] at bits
    have size := (Nat.log2_lt (Nat.ne_of_gt positive)).mpr small
    simp only [roundedExponent]
    omega
  obtain ⟨r, -, -, rounded⟩ := roundWithAccuracy_cases (divCore Format.binary64 m e n f).1
    (divCore Format.binary64 m e n f).2.1 (divCore Format.binary64 m e n f).2.2
  rw [divided]
  rcases rounded with ⟨-, rounded⟩ | ⟨-, rounded⟩
  · exact ⟨_, _, rounded, by omega⟩
  · exact ⟨_, _, rounded, by omega⟩

theorem div_total {x total : Float} (natural : Natural x.toModel.unpack)
    (less : x.toModel.unpack.le total.toModel.unpack = true)
    (finite : total.toModel.unpack.isFinite = true)
    (positive : ¬ total.toModel.unpack.le (.zero .positive) = true) :
    (x / total).toModel.unpack.isFinite = true ∧ Natural (x / total).toModel.unpack := by
  have divided : (x / total).toModel.unpack = (Float.Model.pack (UnpackedFloat.div Format.binary64
    x.toModel.unpack total.toModel.unpack)).unpack := rfl
  have small {s m e positive} (unpacked : x.toModel.unpack = .finite s m e positive) :
    m < 2 ^ 53 := (unpack_finite unpacked).1.most
  rw [divided]
  generalize x.toModel.unpack = u at *
  generalize total.toModel.unpack = v at *
  have above := (le_iff_rank _ _).mp less
  rcases v with s | _ | s | ⟨_ | _⟩
  · cases finite
  · cases finite
  · cases s <;> exact absurd rfl positive
  · exact absurd rfl positive
  · rename_i n f divisor
    cases natural with
    | zero s =>
      have kept : (Float.Model.pack (.zero (s / .positive))).unpack = .zero (s / .positive) := by
        cases s <;> rfl
      have zeroed : UnpackedFloat.div Format.binary64 (.zero s) (.finite .positive n f divisor) =
        .zero (s / .positive) := rfl
      rw [zeroed, kept]
      exact ⟨rfl, .zero _⟩
    | infinity => simp [rank, Prod.Lex.le_iff] at above
    | @finite m e numerator =>
      simp [rank, Prod.Lex.le_iff] at above
      have lower : e ≤ f := by omega
      obtain ⟨r, t, rounded, bounded⟩ := div_bounded numerator divisor (small rfl) lower
      rw [rounded, ofMantissa]
      split
      · exact ⟨rfl, .zero _⟩
      · rename_i nonzero
        exact (unpack_pack_natural (Nat.pos_of_ne_zero nonzero) bounded).symm

/-! ### Doubles are ordered -/

theorem le_iff (x y : Float) : x ≤ y ↔ x.toModel.unpack.le y.toModel.unpack = true :=
  decide_eq_true_iff

theorem lt_iff (x y : Float) : x < y ↔ x.toModel.unpack.lt y.toModel.unpack = true :=
  decide_eq_true_iff

variable [DoubleExponential]

theorem unpack_zero : (Zero.zero : Float).toModel.unpack = .zero .positive :=
  show (0.0 : Float).toModel.unpack = .zero .positive from rfl

theorem natural_iff (x : Float) : (Zero.zero : Float) ≤ x ↔ Natural x.toModel.unpack := by
  rw [le_iff, unpack_zero]
  exact zero_le_iff .positive _

theorem pos_iff (x : Float) :
    (Zero.zero : Float) < x ↔ (zero .positive).lt x.toModel.unpack = true := by
  rw [lt_iff, unpack_zero]

theorem le_zero_iff (x : Float) :
    x ≤ (Zero.zero : Float) ↔ x.toModel.unpack.le (zero .positive) = true := by
  rw [le_iff, unpack_zero]

theorem toUnit_lt {draw : Nat} (small : draw < 2 ^ 23) :
    ofNat draw / ofNat (2 ^ 23) < (One.one : Float) := by
  have one : (1.0 : Float) = ofNormal normal_one := by decide +kernel
  show ofNat draw / ofNat (2 ^ 23) < 1.0
  rcases Nat.eq_zero_or_pos draw with rfl | positive
  · decide +kernel
  obtain ⟨result, divided⟩ := ofNat_div positive small
  have bits : draw.log2 < 23 := (Nat.log2_lt (Nat.ne_of_gt positive)).mpr small
  rw [divided, one, lt_iff, lt_iff_rank, unpack_ofNormal, unpack_ofNormal]
  simp [rank, Prod.Lex.lt_iff]
  omega

end SeededChoice.Double

namespace SeededChoice

open Float.Model Float.Model.UnpackedFloat Double

variable [DoubleExponential]

instance : OrderedScalar Float where
  lt_irrefl x less := by
    rw [lt_iff, lt_iff_rank] at less
    exact lt_irrefl _ less.2.2
  le_self natural := by
    rw [le_iff, le_iff_rank] at *
    exact ⟨natural.2.1, natural.2.1, le_refl _⟩
  le_trans first second := by
    rw [le_iff, le_iff_rank] at *
    exact ⟨first.1, second.2.1, first.2.2.trans second.2.2⟩
  lt_of_lt_of_le first second := by
    rw [lt_iff, lt_iff_rank] at *
    rw [le_iff, le_iff_rank] at second
    exact ⟨first.1, second.2.1, first.2.2.trans_le second.2.2⟩
  le_of_not_lt left right notLess := by
    have number {x : Float} (finite : x.toModel.unpack.isFinite = true) :
        x.toModel.unpack ≠ .notANumber := by
      intro nan
      rw [nan] at finite
      cases finite
    rw [lt_iff, lt_iff_rank] at notLess
    rw [le_iff, le_iff_rank]
    exact ⟨number left, number right, not_lt.mp fun less => notLess ⟨number right, number left, less⟩⟩
  isFinite_zero := show (0.0 : Float).isFinite = true by decide +kernel
  isFinite_one := show (1.0 : Float).isFinite = true by decide +kernel
  zero_le_one := show (0.0 : Float) ≤ 1.0 by decide +kernel
  le_add_right left right :=
    (le_iff _ _).mpr (le_add ((natural_iff _).mp left) ((natural_iff _).mp right))
  le_add_left left right := by
    have swapped := le_add ((natural_iff _).mp right) ((natural_iff _).mp left)
    rw [float_add_comm] at swapped
    exact (le_iff _ _).mpr swapped
  div_total natural less finite positive := by
    obtain ⟨number, least⟩ := div_total ((natural_iff _).mp natural) ((le_iff _ _).mp less) finite
      fun more => positive ((le_zero_iff _).mpr more)
    exact ⟨number, (natural_iff _).mpr least⟩
  toUnit_lt_one small := toUnit_lt small

instance : ComparableScalar Float where
  le_of_lt less := by
    rw [lt_iff, lt_iff_rank] at less
    rw [le_iff, le_iff_rank]
    exact ⟨less.1, less.2.1, less.2.2.le⟩
  le_of_beq {x y} same := by
    have equal : x.toModel.unpack.compare y.toModel.unpack = some .eq := eq_of_beq same
    rw [le_iff, Float.Model.UnpackedFloat.le, equal]
    rfl

instance : DefiniteScalar Float where
  beq_zero {x} least small := by
    obtain ⟨s, zero⟩ := ((natural_iff x).mp least).eq_zero fun above => small ((pos_iff x).mpr above)
    have equal : x.toModel.unpack.compare (Zero.zero : Float).toModel.unpack = some .eq := by
      rw [zero, unpack_zero]
      rfl
    have same : (x.toModel.unpack.compare (Zero.zero : Float).toModel.unpack == some .eq) = true :=
      beq_iff_eq.mpr equal
    exact same

instance : AscendingScalar Float where
  le_trans := OrderedScalar.le_trans
  lt_of_lt_of_le := OrderedScalar.lt_of_lt_of_le
  lt_of_le_of_lt first second := by
    rw [le_iff, le_iff_rank] at first
    rw [lt_iff, lt_iff_rank] at *
    exact ⟨first.1, second.2.1, first.2.2.trans_lt second.2.2⟩
  beq_self {x} natural := by
    have same : (x.toModel.unpack.compare x.toModel.unpack == some .eq) = true :=
      beq_iff_eq.mpr ((natural_iff x).mp natural).compare_self
    exact same
  le_add_right := OrderedScalar.le_add_right

instance : NeutralScalar Float where
  add_le left right nothing := by
    obtain ⟨s, zero⟩ := ((natural_iff _).mp right).eq_zero fun above =>
      nothing ((pos_iff _).mpr above)
    exact (le_iff _ _).mpr (add_zero_le ((natural_iff _).mp left) zero)

end SeededChoice
