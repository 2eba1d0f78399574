import Mathlib.Algebra.BigOperators.Field
import SeededChoice.Operation
import SeededChoice.Proofs.Distribution.Generators
import SeededChoice.Proofs.Exact.Extended

/-!
# Weights of scores

Whatever the rate and however infinite the scores, the exponential generator writes the shares of
some weights, and the weights are in the order of the scores.
-/

namespace SeededChoice.Generator

open Exact

variable {n : ℕ} {r t : ℝ} {x y : EReal} {v : Fin n → EReal} {w : Fin n → ℝ} {u : Update Exact}

/-! ### Shares -/

/-- The part that each weight has in their total. -/
noncomputable def shareOf (w : Fin n → ℝ) (i : Fin n) : ℝ := w i / ∑ j, w j

theorem shareOf_mul {c : ℝ} (nonzero : c ≠ 0) : (shareOf fun i => w i * c) = shareOf w := by
  funext i
  rw [shareOf, ← Finset.sum_mul, mul_div_mul_right _ _ nonzero, shareOf]

theorem shareOf_comp (σ : Equiv.Perm (Fin n)) : shareOf (w ∘ σ) = shareOf w ∘ σ := by
  funext i
  simp only [shareOf, Function.comp_apply, Equiv.sum_comp σ w]

theorem shareOf_one : (shareOf fun _ : Fin n => 1) = fun _ => 1 / (n : ℝ) := by
  funext i
  simp [shareOf]

theorem map_div_ofFn [Exponential] (massive : ∑ i, w i ≠ 0) :
    ((List.ofFn w).map finite).map (· / finite (List.ofFn w).sum) =
      (List.ofFn (shareOf w)).map finite := by
  rw [List.sum_ofFn, map_div_finite _ massive, List.map_ofFn]
  rfl

theorem exists_ofFn_cons (nonempty : n ≠ 0) (v : Fin n → EReal) :
    ∃ first rest, List.ofFn v = first :: rest := by
  apply List.exists_cons_of_ne_nil
  rw [← List.length_pos_iff, List.length_ofFn]
  exact Nat.pos_of_ne_zero nonempty

/-! ### Order under a rate -/

/-- The infinity of largest weight. -/
noncomputable def favoured (r : ℝ) : EReal := if 0 < r then ⊤ else ⊥

/-- The infinity without weight. -/
noncomputable def disfavoured (r : ℝ) : EReal := if 0 < r then ⊥ else ⊤

/-- The second score weighs at least as much as the first. -/
def Trails (r : ℝ) (x y : EReal) : Prop := if 0 < r then x ≤ y else y ≤ x

theorem coe_ne_favoured (r s : ℝ) : (s : EReal) ≠ favoured r := by
  unfold favoured
  split <;> simp

theorem coe_ne_disfavoured (r s : ℝ) : (s : EReal) ≠ disfavoured r := by
  unfold disfavoured
  split <;> simp

theorem disfavoured_ne_favoured (r : ℝ) : disfavoured r ≠ favoured r := by
  unfold disfavoured favoured
  split <;> simp

theorem eq_coe (below : x ≠ favoured r) (above : x ≠ disfavoured r) : ∃ s : ℝ, x = s := by
  unfold favoured at below
  unfold disfavoured at above
  induction x with
  | coe s => exact ⟨s, rfl⟩
  | bot | top => split at below <;> simp_all

theorem Trails.refl (r : ℝ) (x : EReal) : Trails r x x := by
  unfold Trails
  split <;> exact le_refl x

theorem Trails.eq_favoured (trails : Trails r x y) (first : x = favoured r) : y = favoured r := by
  unfold Trails favoured at *
  split at trails <;> simp_all

theorem Trails.eq_disfavoured (trails : Trails r x y) (last : y = disfavoured r) :
    x = disfavoured r := by
  unfold Trails disfavoured at *
  split at trails <;> simp_all

theorem Trails.mul_sub_le {a b : ℝ} (trails : Trails r a b) (t : ℝ) :
    r * (a - t) ≤ r * (b - t) := by
  unfold Trails at trails
  split at trails
  · rename_i rising
    rw [EReal.coe_le_coe_iff] at trails
    exact mul_le_mul_of_nonneg_left (sub_le_sub_right trails t) rising.le
  · rename_i falling
    rw [EReal.coe_le_coe_iff] at trails
    exact mul_le_mul_of_nonpos_left (sub_le_sub_right trails t) (not_lt.mp falling)

/-! ### Favoured scores -/

theorem any_dominant_iff :
    (List.ofFn fun i => decide (v i = favoured r)).any id = true ↔ ∃ i, v i = favoured r := by
  simp [List.any_eq_true, List.mem_ofFn]

theorem sum_indicator_pos (attained : ∃ i, v i = favoured r) :
    0 < ∑ i, indicator (v i = favoured r) := by
  obtain ⟨i, favours⟩ := attained
  have one : indicator (v i = favoured r) = 1 := if_pos (decide_eq_true favours)
  exact Finset.sum_pos' (fun j _ => indicator_nonneg _) ⟨i, Finset.mem_univ i, one ▸ zero_lt_one⟩

variable [Exponential]

theorem isDominant_ofExtended (r : ℝ) (x : EReal) :
    isDominant (finite r) (ofExtended x) = decide (x = favoured r) := by
  rw [isDominant, favoured, zero_eq]
  split
  · rename_i rising
    rw [if_pos ((finite_lt _ _).mp rising), isPositiveInfinity_ofExtended]
  · rename_i falling
    rw [if_neg ((finite_lt _ _).not.mp falling), isNegativeInfinity_ofExtended]

theorem map_isDominant (r : ℝ) (v : Fin n → EReal) :
    ((List.ofFn v).map ofExtended).map (isDominant (finite r)) =
      List.ofFn fun i => decide (v i = favoured r) := by
  rw [List.map_map, List.map_ofFn]
  exact congrArg List.ofFn (funext fun i => isDominant_ofExtended r (v i))

/-- The reference is a score that all of them trail. -/
theorem exists_reference (r : ℝ) (first : EReal) (rest : List EReal) :
    ∃ t ∈ first :: rest, (∀ x ∈ first :: rest, Trails r x t) ∧
      referenceScore (finite r) (ofExtended first) (rest.map ofExtended) = ofExtended t := by
  unfold referenceScore Trails
  rw [zero_eq]
  by_cases rising : 0 < r
  · have top : (first :: rest).max? = some (rest.foldl max first) := List.max?_cons'
    obtain ⟨member, bound⟩ := List.max?_eq_some_iff.mp top
    simp only [if_pos rising, if_pos ((finite_lt _ _).mpr rising)]
    exact ⟨_, member, bound, largest_ofExtended first rest⟩
  · have bottom : (first :: rest).min? = some (rest.foldl min first) := List.min?_cons'
    obtain ⟨member, bound⟩ := List.min?_eq_some_iff.mp bottom
    simp only [if_neg rising, if_neg ((finite_lt _ _).not.mpr rising)]
    exact ⟨_, member, bound, smallest_ofExtended first rest⟩

/-! ### Weights -/

/-- The weight of a score that is not favoured, measured from a finite one. -/
noncomputable def weight (r t : ℝ) : EReal → ℝ
  | ⊥ => 0
  | ⊤ => 0
  | (s : ℝ) => Exponential.exp (r * (s - t))

theorem weight_nonneg (r t : ℝ) (x : EReal) : 0 ≤ weight r t x := by
  induction x with
  | bot | top => exact le_refl 0
  | coe s => exact (Exponential.exp_pos _).le

theorem weight_disfavoured (r t : ℝ) : weight r t (disfavoured r) = 0 := by
  unfold disfavoured
  split
  · rfl
  · rfl

theorem weight_eq_zero_iff (plain : x ≠ favoured r) : weight r t x = 0 ↔ x = disfavoured r := by
  constructor
  · intro weightless
    by_contra finite
    obtain ⟨s, rfl⟩ := eq_coe plain finite
    exact (Exponential.exp_pos _).ne' weightless
  · rintro rfl
    exact weight_disfavoured r t

theorem sum_weight_pos (plain : ∀ i, v i ≠ favoured r) (spared : ∃ i, v i ≠ disfavoured r) :
    0 < ∑ i, weight r t (v i) := by
  obtain ⟨i, weighty⟩ := spared
  have nonzero : weight r t (v i) ≠ 0 := (weight_eq_zero_iff (plain i)).not.mpr weighty
  exact Finset.sum_pos' (fun j _ => weight_nonneg r t (v j))
    ⟨i, Finset.mem_univ i, (weight_nonneg r t (v i)).lt_of_ne' nonzero⟩

theorem weight_le (monotone : Monotone Exponential.exp) (plain : y ≠ favoured r)
    (trails : Trails r x y) : weight r t x ≤ weight r t y := by
  by_cases last : x = disfavoured r
  · rw [last, weight_disfavoured]
    exact weight_nonneg r t y
  · obtain ⟨a, rfl⟩ := eq_coe (fun first => plain (trails.eq_favoured first)) last
    obtain ⟨b, rfl⟩ := eq_coe plain fun below => last (trails.eq_disfavoured below)
    exact monotone (trails.mul_sub_le t)

theorem softWeight_ofExtended (nonzero : r ≠ 0) (plain : x ≠ favoured r) :
    softWeight (finite r) (finite t) (ofExtended x) = finite (weight r t x) := by
  by_cases last : x = disfavoured r
  · subst last
    rw [weight_disfavoured]
    rcases nonzero.lt_or_gt with falling | rising
    · have infinity : disfavoured r = ⊤ := if_neg falling.not_gt
      rw [infinity, ofExtended_top]
      show Scalar.exp (scaleInfinity false r) = _
      rw [scaleInfinity, if_neg falling.not_gt, if_pos falling]
      rfl
    · have infinity : disfavoured r = ⊥ := if_pos rising
      rw [infinity, ofExtended_bot]
      show Scalar.exp (scaleInfinity true r) = _
      rw [scaleInfinity, if_pos rising]
      rfl
  · obtain ⟨s, rfl⟩ := eq_coe plain last
    rw [ofExtended_coe, softWeight, finite_sub, finite_mul]
    rfl

/-- Opposite infinities have no sum, so that an infinite reference has no weight of its own. -/
theorem softWeight_infinite (r : ℝ) (negative : Bool) :
    softWeight (finite r) (infinite negative) (infinite negative) = nan := by
  cases negative with
  | false => rfl
  | true => rfl

/-! ### Updates -/

/-- The updates of the generator, with the weights whose shares they write. -/
inductive Weighs (r : ℝ) (v : Fin n → EReal) : Update Exact → (Fin n → ℝ) → Prop where
  | even (level : r = 0 ∨ ∀ i, v i = disfavoured r) :
    Weighs r v (.fill (.real (uniformShare n))) fun _ => 1
  | among (nonzero : r ≠ 0) (attained : ∃ i, v i = favoured r) :
    Weighs r v (.assign ((List.ofFn (shareOf fun i => indicator (v i = favoured r))).map finite))
      fun i => indicator (v i = favoured r)
  | exponential (t : ℝ) (nonzero : r ≠ 0) (plain : ∀ i, v i ≠ favoured r)
      (spared : ∃ i, v i ≠ disfavoured r) :
    Weighs r v (.assign ((List.ofFn (shareOf fun i => weight r t (v i))).map finite))
      fun i => weight r t (v i)

/-- The update from weights: their shares, or even ones where the weights cannot be normalized. -/
noncomputable def ofWeights (weights : List Exact) (n : Nat) : Update Exact :=
  if !Scalar.isFinite (Scalar.sum weights) || decide (Scalar.sum weights ≤ 0) ||
      !weights.all Scalar.isFinite then
    .fill (.real (uniformShare n))
  else .assign (weights.map (· / Scalar.sum weights))

theorem ofWeights_undefined {weights : List Exact} (undefined : nan ∈ weights) (n : Nat) :
    ofWeights weights n = .fill (.real (uniformShare n)) := by
  have infinite : weights.all Scalar.isFinite = false :=
    List.all_eq_false.mpr ⟨nan, undefined, Bool.false_ne_true⟩
  rw [ofWeights, infinite, Bool.not_false, Bool.or_true, if_pos rfl]

theorem ofWeights_finite (massive : 0 < ∑ i, w i) :
    ofWeights ((List.ofFn w).map finite) n = .assign ((List.ofFn (shareOf w)).map finite) := by
  have all : ((List.ofFn w).map finite).all Scalar.isFinite = true :=
    (all_isFinite_iff _).mpr ⟨_, rfl⟩
  rw [ofWeights, all, sum_finite, map_div_ofFn massive.ne', isFinite_finite, zero_eq,
    List.sum_ofFn, decide_eq_false ((finite_le _ _).not.mpr massive.not_ge)]
  rfl

section
variable (nonempty : n ≠ 0)
include nonempty

theorem softmaxUpdate_among (attained : ∃ i, v i = favoured r) :
    softmaxUpdate (finite r) ((List.ofFn v).map ofExtended) n =
      .assign ((List.ofFn (shareOf fun i => indicator (v i = favoured r))).map finite) := by
  obtain ⟨first, rest, listed⟩ := exists_ofFn_cons nonempty v
  rw [listed, List.map_cons, softmaxUpdate]
  simp only [← List.map_cons, ← listed]
  rw [map_isDominant, if_pos (any_dominant_iff.mpr attained), shareAmong_finite, List.map_ofFn]
  exact congrArg Update.assign (map_div_ofFn (sum_indicator_pos attained).ne')

/-- Without a favoured score, the weights are measured from a score that all of them trail. -/
theorem softmaxUpdate_plain (plain : ∀ i, v i ≠ favoured r) :
    ∃ k, (∀ i, Trails r (v i) (v k)) ∧
      softmaxUpdate (finite r) ((List.ofFn v).map ofExtended) n =
        ofWeights (List.ofFn fun i => softWeight (finite r) (ofExtended (v k)) (ofExtended (v i)))
          n := by
  obtain ⟨first, rest, listed⟩ := exists_ofFn_cons nonempty v
  obtain ⟨t, member, bound, reference⟩ := exists_reference r first rest
  rw [← listed, List.mem_ofFn] at member
  obtain ⟨k, rfl⟩ := member
  refine ⟨k, fun i => bound (v i) (listed ▸ List.mem_ofFn.mpr ⟨i, rfl⟩), ?_⟩
  have unmarked : ¬ (List.ofFn fun i => decide (v i = favoured r)).any id = true :=
    any_dominant_iff.not.mpr (not_exists.mpr plain)
  have weighed : ((List.ofFn v).map ofExtended).map
      (softWeight (finite r) (ofExtended (v k))) =
        List.ofFn fun i => softWeight (finite r) (ofExtended (v k)) (ofExtended (v i)) := by
    rw [List.map_map, List.map_ofFn]
    rfl
  rw [← weighed, listed, List.map_cons, softmaxUpdate]
  simp only [← List.map_cons, ← listed]
  rw [map_isDominant, if_neg unmarked, reference]
  rfl

/-- Scores that are all disfavoured have no weights that are numbers. -/
theorem softmaxUpdate_even (all : ∀ i, v i = disfavoured r) :
    softmaxUpdate (finite r) ((List.ofFn v).map ofExtended) n =
      .fill (.real (uniformShare n)) := by
  have plain : ∀ i, v i ≠ favoured r := fun i => all i ▸ disfavoured_ne_favoured r
  obtain ⟨k, -, updated⟩ := softmaxUpdate_plain nonempty plain
  have undefined : softWeight (finite r) (ofExtended (v k)) (ofExtended (v k)) = nan := by
    rw [all, disfavoured]
    split
    · exact softWeight_infinite r true
    · exact softWeight_infinite r false
  rw [updated, ofWeights_undefined (List.mem_ofFn.mpr ⟨k, undefined⟩)]

theorem softmaxUpdate_exponential (nonzero : r ≠ 0) (plain : ∀ i, v i ≠ favoured r)
    (spared : ∃ i, v i ≠ disfavoured r) :
    ∃ t, softmaxUpdate (finite r) ((List.ofFn v).map ofExtended) n =
      .assign ((List.ofFn (shareOf fun i => weight r t (v i))).map finite) := by
  obtain ⟨k, bound, updated⟩ := softmaxUpdate_plain nonempty plain
  -- The reference is finite: it is not favoured, and a score that is not disfavoured trails it.
  obtain ⟨t, real⟩ : ∃ t : ℝ, v k = t := by
    obtain ⟨i, weighty⟩ := spared
    exact eq_coe (plain k) fun last => weighty ((bound i).eq_disfavoured last)
  have weights : (List.ofFn fun i => softWeight (finite r) (ofExtended (v k)) (ofExtended (v i))) =
      (List.ofFn fun i => weight r t (v i)).map finite := by
    rw [List.map_ofFn, real]
    exact congrArg List.ofFn (funext fun i => softWeight_ofExtended nonzero (plain i))
  exact ⟨t, by rw [updated, weights, ofWeights_finite (sum_weight_pos plain spared)]⟩

end

section
variable {i j : Fin n} (weighs : Weighs r v u w)
include weighs

theorem Weighs.natural (i : Fin n) : 0 ≤ w i := by
  cases weighs with
  | even level => exact zero_le_one
  | among nonzero attained => exact indicator_nonneg _
  | exponential t nonzero plain spared => exact weight_nonneg r t (v i)

theorem Weighs.massive (nonempty : n ≠ 0) : 0 < ∑ i, w i := by
  cases weighs with
  | even level => simpa using Nat.pos_of_ne_zero nonempty
  | among nonzero attained => exact sum_indicator_pos attained
  | exponential t nonzero plain spared => exact sum_weight_pos plain spared

/-- On each of the ways to a distribution, the weights are in the order of the scores. -/
theorem Weighs.le_of_trails (monotone : Monotone Exponential.exp) (trails : Trails r (v i) (v j)) :
    w i ≤ w j := by
  cases weighs with
  | even level => exact le_refl 1
  | among nonzero attained =>
    show indicator _ ≤ indicator _
    by_cases first : v i = favoured r
    · rw [first, trails.eq_favoured first]
    · rw [decide_eq_false first]
      exact indicator_nonneg _
  | exponential t nonzero plain spared => exact weight_le monotone (plain j) trails

/-- The condition of each way to a distribution leads to no other. -/
theorem Weighs.eq_one (level : r = 0 ∨ ∀ i, v i = disfavoured r) : w = fun _ => 1 := by
  cases weighs with
  | even _ => rfl
  | among nonzero attained =>
    obtain ⟨k, favours⟩ := attained
    have all := level.resolve_left nonzero
    exact absurd ((all k).symm.trans favours) (disfavoured_ne_favoured r)
  | exponential t nonzero plain spared =>
    obtain ⟨k, weighty⟩ := spared
    exact absurd (level.resolve_left nonzero k) weighty

theorem Weighs.eq_indicator (nonzero : r ≠ 0) (attained : ∃ i, v i = favoured r) :
    w = fun i => indicator (v i = favoured r) := by
  obtain ⟨k, favours⟩ := attained
  cases weighs with
  | even level =>
    have all := level.resolve_left nonzero
    exact absurd ((all k).symm.trans favours) (disfavoured_ne_favoured r)
  | among _ _ => rfl
  | exponential t nonzero plain spared => exact absurd favours (plain k)

theorem Weighs.eq_weight (nonzero : r ≠ 0) (plain : ∀ i, v i ≠ favoured r)
    (spared : ∃ i, v i ≠ disfavoured r) :
    ∃ t, w = (fun i => weight r t (v i)) ∧
      u = .assign ((List.ofFn (shareOf w)).map finite) := by
  obtain ⟨k, weighty⟩ := spared
  cases weighs with
  | even level => exact absurd (level.resolve_left nonzero k) weighty
  | among _ attained =>
    obtain ⟨j, favours⟩ := attained
    exact absurd favours (plain j)
  | exponential t _ _ _ => exact ⟨t, rfl, rfl⟩

theorem Weighs.fits : u.Fits n := by
  cases weighs with
  | even level => exact ⟨_, rfl⟩
  | among nonzero attained => exact (List.length_map _).trans List.length_ofFn
  | exponential t nonzero plain spared => exact (List.length_map _).trans List.length_ofFn

theorem Weighs.applied (nonempty : n ≠ 0) {entries : List Exact} (size : entries.length = n) :
    u.applied entries = (List.ofFn (shareOf w)).map finite := by
  cases weighs with
  | even level =>
    rw [Update.applied, List.map_const', size, shareOf_one, List.ofFn_const, List.map_replicate,
      uniformShare, one_eq, ofNat_eq, finite_div _ (Nat.cast_ne_zero.mpr nonempty)]
  | among nonzero attained => rfl
  | exponential t nonzero plain spared => rfl

end

theorem softmax_weighs {rate scores : Argument Exact} (rated : rate.toReal = .ok (finite r))
    (read : scores.toWeights = .ok ((List.ofFn v).map ofExtended)) (nonempty : n ≠ 0) :
    ∃ u w, Weighs r v u w ∧ softmax rate scores n = .ok (.accept u) := by
  have size : ((List.ofFn v).map ofExtended).length = n :=
    (List.length_map _).trans List.length_ofFn
  have numbers : ((List.ofFn v).map ofExtended).any Scalar.isNaN = false := by
    rw [List.any_map]
    exact List.any_eq_false.mpr fun x _ => Bool.eq_false_iff.mp (isNaN_ofExtended x)
  have filled : ((List.ofFn v).map ofExtended).isEmpty = false := by
    rw [List.isEmpty_eq_false_iff, ← List.length_pos_iff, size]
    exact Nat.pos_of_ne_zero nonempty
  have planned : softmax rate scores n =
      if r = 0 then .ok (.accept (.fill (.real (uniformShare n))))
      else .ok (.accept (softmaxUpdate (finite r) ((List.ofFn v).map ofExtended) n)) := by
    simp only [softmax, read, rated, bind, Except.bind, pure, Except.pure, filled, size, numbers,
      nonempty, isFinite_finite, zero_eq, finite_beq, decide_eq_true_iff, decide_false,
      Bool.or_false, Bool.not_true, Bool.false_eq_true, ne_eq, not_true_eq_false, if_false]
  rw [planned]
  split
  · rename_i level
    exact ⟨_, _, .even (.inl level), rfl⟩
  rename_i nonzero
  by_cases favours : ∃ i, v i = favoured r
  · exact ⟨_, _, .among nonzero favours, by rw [softmaxUpdate_among nonempty favours]⟩
  have plain : ∀ i, v i ≠ favoured r := not_exists.mp favours
  by_cases weightless : ∀ i, v i = disfavoured r
  · exact ⟨_, _, .even (.inr weightless), by rw [softmaxUpdate_even nonempty weightless]⟩
  have weighty : ∃ i, v i ≠ disfavoured r := not_forall.mp weightless
  obtain ⟨t, updated⟩ := softmaxUpdate_exponential nonempty nonzero plain weighty
  exact ⟨_, _, .exponential t nonzero plain weighty, by rw [updated]⟩

section
variable {b : Buffer Exact} {rate scores : Argument Exact} (flat : b.rows = none)
  (writable : b.storage.Writable) (keeps : b.storage.KeepsReals) (nonempty : n ≠ 0)
  (size : b.entries.length = n) (rated : rate.toReal = .ok (finite r))
include flat writable keeps nonempty size rated

theorem step_weighs (read : scores.toWeights = .ok ((List.ofFn v).map ofExtended)) :
    ∃ u w, Weighs r v u w ∧ softmax rate scores n = .ok (.accept u) ∧
      (Operation.softmax rate scores).step b = (.ok (.status .success),
        { b with entries := (List.ofFn (shareOf w)).map finite }) := by
  obtain ⟨u, w, weighs, planned⟩ := softmax_weighs rated read nonempty
  refine ⟨u, w, weighs, planned, ?_⟩
  have fits : u.Fits b.entries.length := size ▸ weighs.fits
  rw [Operation.step, Operation.plan, Operation.perform_answering, Buffer.length_flat flat, size,
    planned, Buffer.perform_exact flat writable keeps fits]
  show (_, { b with entries := u.applied b.entries }) = _
  rw [weighs.applied nonempty size]
  rfl

end

end SeededChoice.Generator
