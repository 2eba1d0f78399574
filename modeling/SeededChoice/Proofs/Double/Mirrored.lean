import SeededChoice.Proofs.Double.Operations
import SeededChoice.Proofs.Scalar.Mirrored

/-!
# Doubles are mirrored

A double is negated by its sign alone, and rounding to the nearest does not look at the sign. The
sign of a zero is the exception: a difference that vanishes is a positive zero whichever way it is
taken.
-/

namespace SeededChoice.Double

open Float.Model Float.Model.UnpackedFloat

/-- The same magnitude under opposite signs; the signs of zeros may be any. -/
inductive Opposed : UnpackedFloat → UnpackedFloat → Prop where
  | notANumber : Opposed .notANumber .notANumber
  | infinity (s : Sign) : Opposed (.infinity s) (.infinity (-s))
  | zero (s t : Sign) : Opposed (.zero s) (.zero t)
  | finite (s : Sign) {m : Nat} {e : Int} (positive : 0 < m) :
    Opposed (.finite s m e positive) (.finite (-s) m e positive)

theorem neg_neg_sign (s : Sign) : - -s = s := by
  cases s with
  | negative => rfl
  | positive => rfl

theorem neg_mul_neg_sign (s t : Sign) : -s * -t = s * t := by
  cases s <;> cases t <;> rfl

theorem opposed_neg (u : UnpackedFloat) : Opposed u u.neg := by
  cases u with
  | notANumber => exact .notANumber
  | infinity s => exact .infinity s
  | zero s => exact .zero s (-s)
  | finite s m e positive => exact .finite s positive

/-! ### Unpacked numbers -/

section
variable {u v x y : UnpackedFloat}

theorem Opposed.symm (opposed : Opposed u v) : Opposed v u := by
  cases opposed with
  | notANumber => exact .notANumber
  | infinity s =>
    have turned := Opposed.infinity (-s)
    rwa [neg_neg_sign] at turned
  | zero s t => exact .zero t s
  | @finite s m e positive =>
    have turned := Opposed.finite (e := e) (-s) positive
    rwa [neg_neg_sign] at turned

theorem Opposed.isFinite_eq (opposed : Opposed u v) : u.isFinite = v.isFinite := by
  cases opposed <;> rfl

theorem Opposed.compare_eq (first : Opposed u v) (second : Opposed x y) :
    u.compare x = y.compare v := by
  rcases first with _ | ⟨_ | _⟩ | _ | @⟨_ | _, m, e, _⟩ <;>
    rcases second with _ | ⟨_ | _⟩ | _ | @⟨_ | _, n, f, _⟩ <;> try rfl
  -- What is left are two finite numbers of one sign, with the comparison swapped below zero.
  all_goals
    show some _ = some _
    simp only [Ordering.swap_then, Int.compare_swap, Nat.compare_swap]

theorem opposed_pack (opposed : Opposed u v) :
    Opposed (Float.Model.pack u).unpack (Float.Model.pack v).unpack := by
  cases opposed with
  | notANumber => exact .notANumber
  | infinity s => cases s <;> exact .infinity _
  | zero s t => cases s <;> cases t <;> exact .zero _ _
  | @finite s m e positive =>
    have turned := unpack_pack_negative (e := e) positive
    cases s with
    | positive =>
      show Opposed _ (Float.Model.pack (.finite .negative m e positive)).unpack
      rw [turned]
      exact opposed_neg _
    | negative =>
      rw [turned]
      exact (opposed_neg _).symm

theorem opposed_normalize (k e : Int) :
    Opposed (UnpackedFloat.normalize Format.binary64 k e .positive)
      (UnpackedFloat.normalize Format.binary64 (-k) e .positive) := by
  unfold UnpackedFloat.normalize
  rcases Int.lt_trichotomy k 0 with negative | rfl | positive
  · rw [Int.compare_eq_lt.mpr negative, Int.compare_eq_gt.mpr (Int.neg_pos.mpr negative)]
    dsimp only
    rw [round_negative]
    exact (opposed_neg _).symm
  · exact .zero .positive .positive
  · rw [Int.compare_eq_gt.mpr positive, Int.compare_eq_lt.mpr (Int.neg_neg_iff_pos.mpr positive)]
    dsimp only
    rw [round_negative, Int.neg_neg]
    exact opposed_neg _

theorem Opposed.sub (first : Opposed u v) (second : Opposed x y) :
    Opposed (UnpackedFloat.sub Format.binary64 u x) (UnpackedFloat.sub Format.binary64 v y) := by
  cases first with
  | notANumber => cases second <;> exact .notANumber
  | infinity s =>
    cases second with
    | notANumber => exact .notANumber
    | infinity t => cases s <;> cases t <;> constructor
    | zero | finite => exact .infinity s
  | zero s s' =>
    cases second with
    | notANumber => exact .notANumber
    | infinity t => exact .infinity (-t)
    | zero t t' => cases s <;> cases s' <;> cases t <;> cases t' <;> constructor
    | finite t positive => exact .finite (-t) positive
  | @finite s m e positive =>
    cases second with
    | notANumber => exact .notANumber
    | infinity t => exact .infinity (-t)
    | zero t t' => exact .finite s positive
    | @finite t n f other =>
      have turned (a b : Int) : (-s).apply a - (-t).apply b = -(s.apply a - t.apply b) := by
        rw [apply_neg, apply_neg, neg_sub_neg, neg_sub]
      simp only [UnpackedFloat.sub, decreaseExponent, turned]
      exact opposed_normalize _ _

theorem Opposed.mul (first : Opposed u v) (second : Opposed x y) :
    UnpackedFloat.mul Format.binary64 u x = UnpackedFloat.mul Format.binary64 v y ∨
      ∃ s t, UnpackedFloat.mul Format.binary64 u x = .zero s ∧
        UnpackedFloat.mul Format.binary64 v y = .zero t := by
  cases first with
  | notANumber => cases second <;> exact .inl rfl
  | infinity s =>
    cases second with
    | notANumber | zero => exact .inl rfl
    | infinity t | finite t positive =>
      exact .inl (congrArg UnpackedFloat.infinity (neg_mul_neg_sign s t).symm)
  | zero s s' =>
    cases second with
    | notANumber | infinity => exact .inl rfl
    | zero t t' => exact .inr ⟨_, _, rfl, rfl⟩
    | finite t positive => exact .inr ⟨_, _, rfl, rfl⟩
  | finite s positive =>
    cases second with
    | notANumber => exact .inl rfl
    | infinity t => exact .inl (congrArg UnpackedFloat.infinity (neg_mul_neg_sign s t).symm)
    | zero t t' => exact .inr ⟨_, _, rfl, rfl⟩
    | finite t other =>
      left
      simp only [UnpackedFloat.mul, neg_mul_neg_sign]

end

/-! ### Doubles -/

theorem unpack_pack_unpack (x : Float) :
    (Float.Model.pack x.toModel.unpack).unpack = x.toModel.unpack := by
  cases finite : x.toModel.unpack.isFinite with
  | true => exact (reduced_of_isFinite finite).unpack_pack
  | false =>
    generalize x.toModel.unpack = u at finite
    cases u with
    | notANumber => rfl
    | infinity s => cases s <;> rfl
    | zero | finite => cases finite

theorem float_opposed_neg (x : Float) : Opposed x.toModel.unpack (-x).toModel.unpack := by
  have packed := opposed_pack (opposed_neg x.toModel.unpack)
  rw [unpack_pack_unpack] at packed
  exact packed

theorem float_opposed_ofInt (n : Int) :
    Opposed (ofInt n).toModel.unpack (ofInt (-n)).toModel.unpack := by
  unfold ofInt
  rw [Int.natAbs_neg]
  rcases Int.lt_trichotomy n 0 with negative | rfl | positive
  · rw [if_pos negative, if_neg (by omega)]
    exact (float_opposed_neg _).symm
  · exact .zero .positive .positive
  · rw [if_neg (by omega), if_pos (by omega)]
    exact float_opposed_neg _

section
variable {x y u v : Float} (first : Opposed x.toModel.unpack u.toModel.unpack)
include first

theorem float_isNaN_eq : Scalar.isNaN x = Scalar.isNaN u := by
  show (!(x.toModel.unpack.compare x.toModel.unpack == some .eq)) =
    (!(u.toModel.unpack.compare u.toModel.unpack == some .eq))
  rw [first.compare_eq first]

theorem float_beq_zero_eq : (x == 0) = (u == 0) := by
  show (x.toModel.unpack.compare (.zero .positive) == some .eq) =
    (u.toModel.unpack.compare (.zero .positive) == some .eq)
  generalize x.toModel.unpack = w at first
  generalize u.toModel.unpack = z at first
  cases first with
  | notANumber | zero => rfl
  | infinity s | finite s => cases s <;> rfl

variable (second : Opposed y.toModel.unpack v.toModel.unpack)
include second

theorem float_lt_iff : x < y ↔ v < u := by
  rw [lt_iff, lt_iff, UnpackedFloat.lt, first.compare_eq second, ← UnpackedFloat.lt]

theorem float_mul_eq :
    x * y = u * v ∨ (x * y = 0.0 ∨ x * y = -0.0) ∧ (u * v = 0.0 ∨ u * v = -0.0) := by
  have signed (s : Sign) : Float.ofModel (.pack (.zero s)) = 0.0 ∨
      Float.ofModel (.pack (.zero s)) = -0.0 := by
    cases s with
    | positive => exact .inl rfl
    | negative => exact .inr rfl
  have left : x * y = Float.ofModel (.pack
    (UnpackedFloat.mul Format.binary64 x.toModel.unpack y.toModel.unpack)) := rfl
  have right : u * v = Float.ofModel (.pack
    (UnpackedFloat.mul Format.binary64 u.toModel.unpack v.toModel.unpack)) := rfl
  rw [left, right]
  rcases first.mul second with same | ⟨s, t, vanishes, other⟩
  · exact .inl (by rw [same])
  · rw [vanishes, other]
    exact .inr ⟨signed s, signed t⟩

end

end SeededChoice.Double

namespace SeededChoice

open Double

instance [DoubleExponential] : MirroredScalar Float where
  Opposed x u := Opposed x.toModel.unpack u.toModel.unpack
  opposed_neg := float_opposed_neg
  opposed_symm := Opposed.symm
  opposed_zero := by
    show Opposed (Zero.zero : Float).toModel.unpack (Zero.zero : Float).toModel.unpack
    rw [unpack_zero]
    exact .zero .positive .positive
  opposed_nan := show Opposed Double.nan.toModel.unpack Double.nan.toModel.unpack from .notANumber
  opposed_ofInt n := by
    have opposed := float_opposed_ofInt n
    have finite : (ofInt n).isFinite = (ofInt (-n)).isFinite := opposed.isFinite_eq
    show Option.Rel _ (Double.ofInt? n) (Double.ofInt? (-n))
    simp only [Double.ofInt?, ← finite]
    split
    · exact .some opposed
    · exact .none
  isFinite_eq := Opposed.isFinite_eq
  isNaN_eq := float_isNaN_eq
  beq_zero_eq := float_beq_zero_eq
  lt_iff := float_lt_iff
  opposed_sub first second := opposed_pack (first.sub second)
  mul_eq := float_mul_eq

end SeededChoice
