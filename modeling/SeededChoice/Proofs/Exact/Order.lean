import SeededChoice.Proofs.Exact.Arithmetic
import SeededChoice.Proofs.Scalar.Ascending
import SeededChoice.Proofs.Scalar.Nearest

/-!
# Exact numbers are ordered

Exact arithmetic rounds nothing, so it keeps order for the plain reason, and every result is the
nearest number to itself; the infinities are where sums of doubles overflow to.
-/

namespace SeededChoice

variable [Exponential]

namespace Exact

theorem lt_def (v w : Exact) : v < w ↔ lt v w = true := Iff.rfl

theorem le_def (v w : Exact) : v ≤ w ↔ (lt v w || beq v w) = true := Iff.rfl

theorem zero_le_cases {v : Exact} (natural : 0 ≤ v) :
    v = infinite false ∨ ∃ x : ℝ, 0 ≤ x ∧ v = finite x := by
  cases v with
  | nan => cases natural
  | infinite negative =>
    cases negative with
    | false => exact Or.inl rfl
    | true => cases natural
  | finite x => exact Or.inr ⟨x, (finite_le 0 x).mp natural, rfl⟩

end Exact

open Exact

instance : OrderedScalar Exact where
  lt_irrefl v less := by
    cases v <;> simp [lt_def, Exact.lt] at less
  le_self natural := by
    rcases zero_le_cases natural with rfl | ⟨x, -, rfl⟩
    · rfl
    · exact (finite_le x x).mpr (le_refl x)
  le_trans {u v w} first second := by
    rcases u with _ | (_ | _) | _ <;> rcases v with _ | (_ | _) | _ <;> rcases w with _ | (_ | _) | _ <;>
      simp_all [le_def, Exact.lt, Exact.beq, ← le_iff_lt_or_eq]
    exact first.trans second
  lt_of_lt_of_le {u v w} first second := by
    rcases u with _ | (_ | _) | _ <;> rcases v with _ | (_ | _) | _ <;> rcases w with _ | (_ | _) | _ <;>
      simp_all [le_def, lt_def, Exact.lt, Exact.beq, ← le_iff_lt_or_eq]
    exact first.trans_le second
  le_of_not_lt left right notLess := by
    obtain ⟨x, rfl⟩ := (isFinite_iff _).mp left
    obtain ⟨y, rfl⟩ := (isFinite_iff _).mp right
    rw [finite_lt] at notLess
    exact (finite_le x y).mpr (not_lt.mp notLess)
  isFinite_zero := rfl
  isFinite_one := rfl
  zero_le_one := (finite_le 0 1).mpr zero_le_one
  le_add_right left right := by
    rcases zero_le_cases left with rfl | ⟨x, least, rfl⟩
    · rcases zero_le_cases right with rfl | ⟨y, -, rfl⟩ <;> rfl
    · rcases zero_le_cases right with rfl | ⟨y, natural, rfl⟩
      · rfl
      · rw [finite_add, finite_le]
        exact le_add_of_nonneg_right natural
  le_add_left left right := by
    rcases zero_le_cases right with rfl | ⟨y, least, rfl⟩
    · rcases zero_le_cases left with rfl | ⟨x, -, rfl⟩ <;> rfl
    · rcases zero_le_cases left with rfl | ⟨x, natural, rfl⟩
      · rfl
      · rw [finite_add, finite_le]
        exact le_add_of_nonneg_left natural
  div_total natural less finite positive := by
    obtain ⟨y, rfl⟩ := (isFinite_iff _).mp finite
    rw [zero_eq, finite_le, not_le] at positive
    rcases zero_le_cases natural with rfl | ⟨x, least, rfl⟩
    · cases less
    · rw [finite_div x (ne_of_gt positive), zero_eq, finite_le]
      exact ⟨rfl, div_nonneg least (le_of_lt positive)⟩
  toUnit_lt_one {draw} small := by
    have parts : ((Stream.resolution : Nat) : ℝ) = 2 ^ 23 := by norm_num [Stream.resolution]
    have less : (draw : ℝ) < 2 ^ 23 := by exact_mod_cast small
    rw [Stream.toUnit, ofNat_eq, ofNat_eq, parts, finite_div _ (by norm_num), one_eq, finite_lt,
      div_lt_one (by norm_num)]
    exact less

instance : ComparableScalar Exact where
  le_of_lt less := by
    rw [lt_def] at less
    rw [le_def, less, Bool.true_or]
  le_of_beq {v w} same := by
    have equal : Exact.beq v w = true := same
    rw [le_def, equal, Bool.or_true]

instance : DefiniteScalar Exact where
  beq_zero {v} least small := by
    rcases zero_le_cases least with rfl | ⟨x, natural, rfl⟩
    · exact absurd rfl small
    · rw [zero_eq, finite_lt, not_lt] at small
      rw [zero_eq, finite_beq, decide_eq_true_iff]
      exact le_antisymm small natural

instance : AscendingScalar Exact where
  le_trans := OrderedScalar.le_trans
  lt_of_lt_of_le := OrderedScalar.lt_of_lt_of_le
  lt_of_le_of_lt {u v w} first second := by
    rcases u with _ | (_ | _) | _ <;> rcases v with _ | (_ | _) | _ <;> rcases w with _ | (_ | _) | _ <;>
      simp_all [le_def, lt_def, Exact.lt, Exact.beq, ← le_iff_lt_or_eq]
    exact first.trans_lt second
  beq_self natural := by
    rcases zero_le_cases natural with rfl | ⟨x, -, rfl⟩
    · rfl
    · rw [finite_beq, decide_eq_true rfl]
  le_add_right := OrderedScalar.le_add_right

instance : NeutralScalar Exact where
  add_le left right nothing := by
    rcases zero_le_cases right with rfl | ⟨y, natural, rfl⟩
    · exact absurd rfl nothing
    rw [zero_eq, finite_lt, not_lt] at nothing
    rcases zero_le_cases left with rfl | ⟨x, -, rfl⟩
    · rfl
    · rw [finite_add, finite_le]
      exact add_le_of_nonpos_right nothing

theorem Exact.zero_lt_cases {v : Exact} (positive : 0 < v) :
    v = infinite false ∨ ∃ x : ℝ, 0 < x ∧ v = finite x := by
  rcases zero_le_cases (ComparableScalar.le_of_lt positive) with rfl | ⟨x, -, rfl⟩
  · exact Or.inl rfl
  · exact Or.inr ⟨x, (finite_lt 0 x).mp positive, rfl⟩

instance : ProportionalScalar Exact where
  share {v n} number natural positive := by
    obtain ⟨x, rfl⟩ := (isFinite_iff v).mp number
    have count : (0 : ℝ) < n := Nat.cast_pos.mpr positive
    have quotient : finite x / Scalar.ofNat n = finite (x / n) := finite_div x count.ne'
    rw [zero_eq, finite_le] at natural
    rw [quotient, zero_eq, finite_le]
    exact ⟨rfl, div_nonneg natural count.le⟩
  sub_none {v total} number positive := by
    obtain ⟨x, rfl⟩ := (isFinite_iff v).mp number
    have vanishes : finite x * Scalar.ofNat 0 = finite 0 := by
      rw [ofNat_eq, finite_mul, Nat.cast_zero, mul_zero]
    rw [vanishes]
    rcases zero_lt_cases positive with rfl | ⟨y, -, rfl⟩
    · rfl
    · rw [finite_sub, sub_zero]
  not_scaled_lt {v total} number natural positive := by
    obtain ⟨x, rfl⟩ := (isFinite_iff v).mp number
    rcases zero_lt_cases positive with rfl | ⟨y, above, rfl⟩
    · exact Bool.false_ne_true
    · rw [finite_div y above.ne', div_self above.ne', finite_mul, mul_one]
      exact OrderedScalar.lt_irrefl _

theorem Exact.not_exp_lt_zero (v : Exact) : ¬ Scalar.exp v < 0 := by
  cases v with
  | nan => exact Bool.false_ne_true
  | infinite negative =>
    cases negative with
    | false => exact Bool.false_ne_true
    | true => exact (finite_lt 0 0).not.mpr (lt_irrefl 0)
  | finite x => exact (finite_lt _ 0).not.mpr (not_lt.mpr (Exponential.exp_pos x).le)

/-! ### Nothing is rounded -/

noncomputable instance : HasValue Exact where
  value
    | finite x => x
    | nan | infinite _ => 0

theorem Exact.isNearest (x : ℝ) : Scalar.IsNearest x (finite x) := by
  refine ⟨rfl, fun y _ => ?_⟩
  rw [show HasValue.value (finite x) = x from rfl, sub_self, abs_zero]
  exact abs_nonneg _

instance : NearestScalar Exact where
  value_zero := rfl
  value_one := rfl
  le_iff left right := by
    obtain ⟨x, rfl⟩ := (isFinite_iff _).mp left
    obtain ⟨y, rfl⟩ := (isFinite_iff _).mp right
    exact finite_le x y
  isFinite_between {u v w} lower upper least most := by
    obtain ⟨x, rfl⟩ := (isFinite_iff _).mp lower
    obtain ⟨z, rfl⟩ := (isFinite_iff _).mp upper
    rcases v with _ | (_ | _) | y <;> simp_all [le_def, Exact.lt, Exact.beq]
  neg finite := by
    obtain ⟨x, rfl⟩ := (isFinite_iff _).mp finite
    exact ⟨rfl, rfl⟩
  double finite _ := by
    obtain ⟨x, rfl⟩ := (isFinite_iff _).mp finite
    exact (two_mul x).symm
  ofNat {n} _ := isNearest n
  add left right _ := by
    obtain ⟨x, rfl⟩ := (isFinite_iff _).mp left
    obtain ⟨y, rfl⟩ := (isFinite_iff _).mp right
    exact isNearest (x + y)
  sub left right _ := by
    obtain ⟨x, rfl⟩ := (isFinite_iff _).mp left
    obtain ⟨y, rfl⟩ := (isFinite_iff _).mp right
    rw [finite_sub]
    exact isNearest (x - y)
  mul left right _ := by
    obtain ⟨x, rfl⟩ := (isFinite_iff _).mp left
    obtain ⟨y, rfl⟩ := (isFinite_iff _).mp right
    exact isNearest (x * y)
  div left right nonzero _ := by
    obtain ⟨x, rfl⟩ := (isFinite_iff _).mp left
    obtain ⟨y, rfl⟩ := (isFinite_iff _).mp right
    have divided : finite x / finite y = finite (x / y) := finite_div x nonzero
    rw [divided]
    exact isNearest (x / y)

end SeededChoice
