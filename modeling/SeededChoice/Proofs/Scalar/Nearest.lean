import Mathlib
import SeededChoice.Proofs.Scalar.Ordered

/-!
# Scalars that round to the nearest

Rounding to the nearest keeps a result on its side of every scalar, and keeps the order of results.
So bounds that are scalars themselves carry over from exact results to rounded ones: the bound of a
sum doubles with each addition, and no more than `2 ^ 186` times the greatest entry comes of any list
that can be held.
-/

namespace SeededChoice

/-- The number that a finite scalar stands for. -/
class HasValue (α : Type) where
  value : α → ℝ

namespace Scalar

/-- Up to here results are rounded to finite scalars. -/
noncomputable def limit : ℝ := (2 : ℕ) ^ 1000

theorem two_pow_le_limit {k : Nat} (small : k ≤ 1000) : (2 : ℝ) ^ k ≤ limit :=
  pow_le_pow_right₀ one_le_two small

/-- A finite scalar, and no other is nearer to `a`. -/
def IsNearest {α : Type} [Scalar α] [HasValue α] (a : ℝ) (x : α) : Prop :=
  isFinite x = true ∧
    ∀ y : α, isFinite y = true → |HasValue.value x - a| ≤ |HasValue.value y - a|

end Scalar

open Scalar HasValue

/-- A scalar whose arithmetic rounds to the nearest, as long as results are not too large. -/
class NearestScalar (α : Type) [Scalar α] [HasValue α] : Prop extends ComparableScalar α where
  value_zero : value (0 : α) = 0
  value_one : value (1 : α) = 1
  le_iff {x y : α} : isFinite x = true → isFinite y = true → (x ≤ y ↔ value x ≤ value y)
  isFinite_between {x y z : α} :
    isFinite x = true → isFinite z = true → x ≤ y → y ≤ z → isFinite y = true
  neg {x : α} : isFinite x = true → isFinite (-x) = true ∧ value (-x) = -value x
  double {x : α} : isFinite x = true → |2 * value x| ≤ limit → value (x + x) = 2 * value x
  ofNat {n : Nat} : (n : ℝ) ≤ limit → IsNearest n (Scalar.ofNat n : α)
  add {x y : α} : isFinite x = true → isFinite y = true → |value x + value y| ≤ limit →
    IsNearest (value x + value y) (x + y)
  sub {x y : α} : isFinite x = true → isFinite y = true → |value x - value y| ≤ limit →
    IsNearest (value x - value y) (x - y)
  mul {x y : α} : isFinite x = true → isFinite y = true → |value x * value y| ≤ limit →
    IsNearest (value x * value y) (x * y)
  div {x y : α} : isFinite x = true → isFinite y = true → value y ≠ 0 →
    |value x / value y| ≤ limit → IsNearest (value x / value y) (x / y)

namespace Scalar

/-- A number that a finite scalar stands for. -/
def IsValue (α : Type) [Scalar α] [HasValue α] (t : ℝ) : Prop :=
  ∃ x : α, isFinite x = true ∧ value x = t

variable {α : Type} [Scalar α] [HasValue α] {a b t : ℝ} {x y acc : α} {xs lanes row : List α}

namespace IsNearest

theorem le (nearest : IsNearest a x) (held : IsValue α t) (most : a ≤ t) : value x ≤ t := by
  obtain ⟨y, finite, rfl⟩ := held
  have near := nearest.2 y finite
  by_contra more
  rw [abs_of_nonneg (by linarith), abs_of_nonneg (by linarith)] at near
  linarith

theorem ge (nearest : IsNearest a x) (held : IsValue α t) (least : t ≤ a) : t ≤ value x := by
  obtain ⟨y, finite, rfl⟩ := held
  have near := nearest.2 y finite
  by_contra less
  rw [abs_of_nonpos (by linarith), abs_of_nonpos (by linarith)] at near
  linarith

theorem eq (nearest : IsNearest a x) (held : IsValue α a) : value x = a :=
  le_antisymm (nearest.le held (le_refl a)) (nearest.ge held (le_refl a))

/-- A greater number is not rounded to a lesser scalar. -/
theorem mono (first : IsNearest a x) (second : IsNearest b y) (less : a < b) :
    value x ≤ value y := by
  have left := sq_le_sq.mpr (first.2 y second.1)
  have right := sq_le_sq.mpr (second.2 x first.1)
  by_contra more
  -- Both scalars would lie on the other side of the middle between them.
  have apart : 0 < value x - value y := sub_pos.mpr (not_le.mp more)
  have low : value x + value y - 2 * a ≤ 0 := by
    by_contra above
    nlinarith [mul_pos apart (not_le.mp above)]
  have high : 0 ≤ value x + value y - 2 * b := by
    by_contra below
    nlinarith [mul_pos apart (neg_pos.mpr (not_le.mp below))]
  linarith

end IsNearest

omit [Scalar α] in
/-- Where there are numbers, one of them is the greatest. -/
theorem exists_greatest {xs : List α} (nonempty : xs ≠ []) :
    ∃ p ∈ xs, ∀ x ∈ xs, value x ≤ value p := by
  cases found : xs.argmax value with
  | none => exact absurd (List.argmax_eq_none.mp found) nonempty
  | some p => exact ⟨p, List.argmax_mem found, fun x listed => List.le_of_mem_argmax listed found⟩

variable [NearestScalar α]

theorem lt_iff (left : isFinite x = true) (right : isFinite y = true) :
    x < y ↔ value x < value y := by
  rw [← not_le, ← NearestScalar.le_iff right left]
  constructor
  · exact fun less more => not_lt_of_le more less
  · intro notLess
    by_contra notMore
    exact notLess (OrderedScalar.le_of_not_lt right left notMore)

theorem value_nonneg_iff (finite : isFinite x = true) : 0 ≤ value x ↔ 0 ≤ x := by
  rw [NearestScalar.le_iff OrderedScalar.isFinite_zero finite, NearestScalar.value_zero]

theorem value_pos_iff (finite : isFinite x = true) : 0 < value x ↔ 0 < x := by
  rw [lt_iff OrderedScalar.isFinite_zero finite, NearestScalar.value_zero]

/-! ### Bounds that are scalars -/

namespace IsValue

theorem zero : IsValue α 0 := ⟨0, OrderedScalar.isFinite_zero, NearestScalar.value_zero⟩

theorem one : IsValue α 1 := ⟨1, OrderedScalar.isFinite_one, NearestScalar.value_one⟩

theorem neg (held : IsValue α t) : IsValue α (-t) := by
  obtain ⟨x, finite, rfl⟩ := held
  exact ⟨-x, NearestScalar.neg finite⟩

theorem double (held : IsValue α t) (small : |2 * t| ≤ limit) : IsValue α (2 * t) := by
  obtain ⟨x, finite, rfl⟩ := held
  have sum : |value x + value x| ≤ limit := by rwa [← two_mul]
  exact ⟨x + x, (NearestScalar.add finite finite sum).1, NearestScalar.double finite small⟩

theorem scale (held : IsValue α t) (k : Nat) (small : 2 ^ k * |t| ≤ limit) :
    IsValue α (2 ^ k * t) := by
  induction k with
  | zero => rwa [pow_zero, one_mul]
  | succ k ih =>
    have growing : (2 : ℝ) ^ k * |t| ≤ 2 ^ (k + 1) * |t| :=
      mul_le_mul_of_nonneg_right (pow_le_pow_right₀ one_le_two (Nat.le_succ k)) (abs_nonneg t)
    have twice : (2 : ℝ) ^ (k + 1) * t = 2 * (2 ^ k * t) := by ring
    rw [twice]
    apply (ih (growing.trans small)).double
    rwa [← twice, abs_mul, abs_of_nonneg (by positivity)]

theorem two_pow {k : Nat} (small : k ≤ 1000) : IsValue α (2 ^ k) := by
  have scaled := (one (α := α)).scale k
  rw [abs_one, mul_one] at scaled
  exact scaled (two_pow_le_limit small)

end IsValue

/-! ### Numbers within a bound -/

/-- A finite scalar between zero and a bound. -/
structure Within (t : ℝ) (x : α) : Prop where
  finite : isFinite x = true
  least : 0 ≤ value x
  most : value x ≤ t

namespace Within

omit [NearestScalar α] in
theorem bound_nonneg (within : Within t x) : 0 ≤ t := within.least.trans within.most

omit [NearestScalar α] in
theorem mono {u : ℝ} (within : Within t x) (more : t ≤ u) : Within u x :=
  ⟨within.finite, within.least, within.most.trans more⟩

theorem zero (natural : 0 ≤ t) : Within t (0 : α) :=
  ⟨OrderedScalar.isFinite_zero, NearestScalar.value_zero.ge,
    NearestScalar.value_zero.trans_le natural⟩

theorem natural (within : Within t x) : 0 ≤ x := by
  rw [NearestScalar.le_iff OrderedScalar.isFinite_zero within.finite, NearestScalar.value_zero]
  exact within.least

/-- What is rounded to the nearest stays within a bound that is a scalar. -/
theorem of_nearest (nearest : IsNearest a x) (held : IsValue α t) (least : 0 ≤ a) (most : a ≤ t) :
    Within t x :=
  ⟨nearest.1, nearest.ge .zero least, nearest.le held most⟩

theorem add (left : Within t x) (right : Within t y) (held : IsValue α (2 * t))
    (small : 2 * t ≤ limit) : Within (2 * t) (x + y) := by
  have least := add_nonneg left.least right.least
  have most : value x + value y ≤ 2 * t := by linarith [left.most, right.most]
  refine of_nearest (NearestScalar.add left.finite right.finite ?_) held least most
  rw [abs_of_nonneg least]
  exact most.trans small

theorem div (left : Within t x) {u : ℝ} (right : isFinite y = true) (positive : 0 < value y)
    (held : IsValue α u) (part : value x ≤ u * value y) (small : u ≤ limit) :
    Within u (x / y) := by
  have least := div_nonneg left.least positive.le
  have most : value x / value y ≤ u := (div_le_iff₀ positive).mpr part
  refine of_nearest (NearestScalar.div left.finite right positive.ne' ?_) held least most
  rw [abs_of_nonneg least]
  exact most.trans small

end Within

/-! ### Counts and shares -/

theorem within_ofNat {n k : Nat} (size : n ≤ 2 ^ k) (small : k ≤ 1000) :
    Within (2 ^ k) (ofNat n : α) := by
  have most : (n : ℝ) ≤ 2 ^ k := by exact_mod_cast size
  exact .of_nearest (NearestScalar.ofNat (most.trans (two_pow_le_limit small)))
    (.two_pow small) (Nat.cast_nonneg n) most

theorem one_le_ofNat {n k : Nat} (positive : 0 < n) (size : n ≤ 2 ^ k) (small : k ≤ 1000) :
    1 ≤ value (ofNat n : α) := by
  have most : (n : ℝ) ≤ 2 ^ k := by exact_mod_cast size
  exact (NearestScalar.ofNat (most.trans (two_pow_le_limit small))).ge .one
    (Nat.one_le_cast.mpr positive)

theorem value_ofNat_le {m n k : Nat} (less : m ≤ n) (size : n ≤ 2 ^ k) (small : k ≤ 1000) :
    value (ofNat m : α) ≤ value (ofNat n : α) := by
  rcases less.eq_or_lt with rfl | fewer
  · exact le_refl _
  · have bounded {i : Nat} (under : i ≤ 2 ^ k) : IsNearest i (ofNat i : α) := by
      have most : (i : ℝ) ≤ 2 ^ k := by exact_mod_cast under
      exact NearestScalar.ofNat (most.trans (two_pow_le_limit small))
    exact (bounded (less.trans size)).mono (bounded size) (Nat.cast_lt.mpr fewer)

theorem within_one : Within 1 (1 : α) :=
  ⟨OrderedScalar.isFinite_one, by rw [NearestScalar.value_one]; exact zero_le_one,
    NearestScalar.value_one.le⟩

theorem one_le_limit : (1 : ℝ) ≤ limit := one_le_pow₀ one_le_two

theorem within_unit (least : 0 ≤ x) (most : x ≤ 1) : Within 1 x := by
  have finite := NearestScalar.isFinite_between OrderedScalar.isFinite_zero
    OrderedScalar.isFinite_one least most
  rw [NearestScalar.le_iff OrderedScalar.isFinite_zero finite, NearestScalar.value_zero] at least
  rw [NearestScalar.le_iff finite OrderedScalar.isFinite_one, NearestScalar.value_one] at most
  exact ⟨finite, least, most⟩

theorem inUnitInterval_iff : inUnitInterval x = true ↔ 0 ≤ x ∧ x ≤ 1 := by
  simp only [inUnitInterval, Bool.and_eq_true, decide_eq_true_iff, and_assoc, and_iff_right_iff_imp]
  exact fun ⟨least, most⟩ => (within_unit least most).finite

theorem inUnitInterval_iff_within : inUnitInterval x = true ↔ Within 1 x := by
  rw [inUnitInterval_iff]
  refine ⟨fun ⟨least, most⟩ => within_unit least most, fun within => ⟨within.natural, ?_⟩⟩
  rw [NearestScalar.le_iff within.finite OrderedScalar.isFinite_one, NearestScalar.value_one]
  exact within.most

/-- A part of a total, over the total. -/
theorem Within.over (within : Within (value y) x) (finite : isFinite y = true)
    (positive : 0 < value y) : Within 1 (x / y) :=
  within.div finite positive .one (by rw [one_mul]; exact within.most) one_le_limit

/-- A number up to one, shared out. -/
theorem Within.share (within : Within 1 x) {n : Nat} (positive : 0 < n) (short : n < 2 ^ 60) :
    Within 1 (x / ofNat n) := by
  have few : n ≤ 2 ^ 60 := short.le
  have one := one_le_ofNat (α := α) positive few (by norm_num)
  exact (within.mono one).over (within_ofNat few (by norm_num)).finite (zero_lt_one.trans_le one)

/-! ### Sums -/

section
variable (held : IsValue α t) (natural : 0 ≤ t) (room : 2 ^ 186 * t ≤ limit) {k l : Nat}

omit [NearestScalar α] in
include natural in
theorem Within.higher (within : Within (2 ^ k * t) x) (more : k ≤ l) : Within (2 ^ l * t) x :=
  within.mono (mul_le_mul_of_nonneg_right (pow_le_pow_right₀ one_le_two more) natural)

include held natural room

/-- The bound doubles with an addition. -/
theorem within_add (inside : k < 186) (left : Within (2 ^ k * t) x) (right : Within (2 ^ k * t) y) :
    Within (2 ^ (k + 1) * t) (x + y) := by
  have small : 2 ^ (k + 1) * t ≤ limit :=
    (mul_le_mul_of_nonneg_right (pow_le_pow_right₀ one_le_two inside) natural).trans room
  have twice : (2 : ℝ) ^ (k + 1) * t = 2 * (2 ^ k * t) := by ring
  have bound : IsValue α (2 * (2 ^ k * t)) := by
    rw [← twice]
    exact held.scale (k + 1) (by rwa [abs_of_nonneg natural])
  rw [twice] at small ⊢
  exact left.add right bound small

theorem within_foldl (inside : k + xs.length ≤ 186) (start : Within (2 ^ k * t) acc)
    (each : ∀ x ∈ xs, Within (2 ^ k * t) x) :
    Within (2 ^ (k + xs.length) * t) (xs.foldl (· + ·) acc) := by
  induction xs generalizing acc k with
  | nil => exact start
  | cons x rest ih =>
    obtain ⟨first, others⟩ := List.forall_mem_cons.mp each
    rw [List.length_cons] at inside ⊢
    have added := within_add held natural room (by omega) start first
    have folded := ih (by omega) added fun y listed => (others y listed).higher natural (by omega)
    rwa [add_assoc, add_comm 1] at folded

theorem within_addPairs (inside : k < 186) (each : ∀ x ∈ xs, Within (2 ^ k * t) x) :
    ∀ x ∈ addPairs xs, Within (2 ^ (k + 1) * t) x := by
  fun_induction addPairs xs with
  | case1 a b rest ih =>
    simp only [List.forall_mem_cons] at each ⊢
    obtain ⟨first, second, others⟩ := each
    exact ⟨within_add held natural room inside first second, ih others⟩
  | case2 rest => exact fun x listed => (each x listed).higher natural (by omega)

theorem within_joinLanes (inside : k + 3 ≤ 186) (each : ∀ x ∈ xs, Within (2 ^ k * t) x) :
    Within (2 ^ (k + 3) * t) (joinLanes xs) := by
  have once := within_addPairs held natural room (by omega) each
  have twice := within_addPairs held natural room (by omega) once
  have joined := within_addPairs held natural room (by omega) twice
  unfold joinLanes
  cases sums : addPairs (addPairs (addPairs xs)) with
  | nil => exact .zero (by positivity)
  | cons total others => exact joined total (sums ▸ List.mem_cons_self)

theorem within_addRow (inside : k < 186) (left : ∀ x ∈ lanes, Within (2 ^ k * t) x)
    (right : ∀ x ∈ row, Within (2 ^ k * t) x) :
    ∀ x ∈ lanes.zipWith (· + ·) row, Within (2 ^ (k + 1) * t) x := by
  induction lanes generalizing row with
  | nil => simp
  | cons x lanes ih =>
    cases row with
    | nil => simp
    | cons y row =>
      obtain ⟨leftFirst, leftOthers⟩ := List.forall_mem_cons.mp left
      obtain ⟨rightFirst, rightOthers⟩ := List.forall_mem_cons.mp right
      have first := within_add held natural room inside leftFirst rightFirst
      exact List.forall_mem_cons.mpr ⟨first, ih leftOthers rightOthers⟩

theorem within_addRows (rows : Nat) (inside : k + 3 + xs.length ≤ 186)
    (left : ∀ x ∈ lanes, Within (2 ^ k * t) x) (right : ∀ x ∈ xs, Within (2 ^ k * t) x) :
    Within (2 ^ (k + 3 + xs.length) * t) (addRows rows lanes xs) := by
  have ended {k : Nat} {lanes xs : List α} (inside : k + 3 + xs.length ≤ 186)
      (left : ∀ x ∈ lanes, Within (2 ^ k * t) x) (right : ∀ x ∈ xs, Within (2 ^ k * t) x) :
      Within (2 ^ (k + 3 + xs.length) * t) (xs.foldl (· + ·) (joinLanes lanes)) :=
    within_foldl held natural room inside (within_joinLanes held natural room (by omega) left)
      fun x listed => (right x listed).higher natural (by omega)
  induction rows generalizing lanes xs k with
  | zero => exact ended inside left right
  | succ rows ih =>
    rw [addRows]
    split
    · exact ended inside left right
    · rename_i long
      have length : (xs.drop 8).length = xs.length - 8 := List.length_drop
      have added := within_addRow held natural room (by omega) left
        fun x listed => right x (List.mem_of_mem_take (i := 8) listed)
      have others : ∀ x ∈ xs.drop 8, Within (2 ^ (k + 1) * t) x := fun x listed =>
        (right x (List.mem_of_mem_drop listed)).higher natural (by omega)
      exact (ih (by omega) added others).higher natural (by omega)

theorem within_blockSum (short : xs.length ≤ 128) (each : ∀ x ∈ xs, Within t x) :
    Within (2 ^ 131 * t) (blockSum xs) := by
  have unscaled : ∀ x ∈ xs, Within (2 ^ 0 * t) x := by
    rw [pow_zero, one_mul]
    exact each
  rw [blockSum]
  split
  · have folded := within_foldl held natural room (by omega) (.zero (by positivity)) unscaled
    exact folded.higher natural (by omega)
  · have length : (xs.drop 8).length = xs.length - 8 := List.length_drop
    have taken : ∀ x ∈ xs.take 8, Within (2 ^ 0 * t) x := fun x listed =>
      unscaled x (List.mem_of_mem_take listed)
    have dropped : ∀ x ∈ xs.drop 8, Within (2 ^ 0 * t) x := fun x listed =>
      unscaled x (List.mem_of_mem_drop listed)
    have rows := within_addRows held natural room xs.length (by omega) taken dropped
    exact rows.higher natural (by omega)

/-- Each cut halves what is beyond fifteen terms, so `depth` cuts reach the blocks. -/
theorem within_halvingSum {cuts depth : Nat} (enough : depth ≤ cuts) (shallow : depth ≤ 54)
    (short : xs.length ≤ 15 + 113 * 2 ^ depth) (each : ∀ x ∈ xs, Within t x) :
    Within (2 ^ (131 + depth) * t) (halvingSum cuts xs) := by
  induction cuts generalizing depth xs with
  | zero =>
    obtain rfl := Nat.le_zero.mp enough
    exact within_blockSum held natural room short each
  | succ cuts ih =>
    rw [halvingSum]
    split
    · rename_i block
      exact (within_blockSum held natural room block each).higher natural (by omega)
    · rename_i long
      cases depth with
      | zero => omega
      | succ depth =>
        rw [pow_succ] at short
        have halves : (xs.take (splitPoint xs.length)).length ≤ 15 + 113 * 2 ^ depth ∧
            (xs.drop (splitPoint xs.length)).length ≤ 15 + 113 * 2 ^ depth := by
          rw [List.length_take, List.length_drop, splitPoint]
          omega
        have left := ih (by omega) (by omega) halves.1
          fun x listed => each x (List.mem_of_mem_take listed)
        have right := ih (by omega) (by omega) halves.2
          fun x listed => each x (List.mem_of_mem_drop listed)
        have inside : 131 + depth < 186 := by omega
        exact within_add held natural room inside left right

theorem within_sum (short : xs.length < 2 ^ 60) (each : ∀ x ∈ xs, Within t x) :
    Within (2 ^ 186 * t) (sum xs) := by
  have halved : Within (2 ^ 185 * t) (halvingSum xs.length xs) := by
    by_cases block : xs.length ≤ 128
    · have uncut : 0 ≤ xs.length := Nat.zero_le _
      have summed := within_halvingSum held natural room uncut (Nat.zero_le _) block each
      exact summed.higher natural (by omega)
    · have cut : 54 ≤ xs.length := by omega
      exact within_halvingSum held natural room cut (le_refl _) (by omega) each
  have inside : 185 < 186 := by omega
  exact within_add held natural room inside (.zero halved.bound_nonneg) halved

end

theorem within_sum_two_pow {k : Nat} (small : 186 + k ≤ 1000) (short : xs.length < 2 ^ 60)
    (each : ∀ x ∈ xs, Within (2 ^ k) x) : Within (2 ^ (186 + k)) (sum xs) := by
  have large := two_pow_le_limit small
  rw [pow_add] at large ⊢
  exact within_sum (.two_pow (by omega)) (by positivity) large short each

end Scalar

end SeededChoice
