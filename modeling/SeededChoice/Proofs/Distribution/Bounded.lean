import SeededChoice.Generator
import SeededChoice.Proofs.Buffer.Writing
import SeededChoice.Proofs.Scalar.Nearest

/-!
# Bounds on distributions

However a scalar rounds to the nearest, a generator that accepts its input leaves finite values
between zero and two.
-/

namespace SeededChoice

open Scalar HasValue

variable {α : Type} [Scalar α] [HasValue α] {entries : List α} {u : Update α} {t : ℝ}

/-- An update that leaves a number within a bound in each entry. -/
structure Update.Leaves (t : ℝ) (entries : List α) (u : Update α) : Prop where
  fits : u.Fits entries.length
  within : ∀ y ∈ u.applied entries, Within t y

theorem Update.Leaves.mono {v : ℝ} (leaves : u.Leaves t entries) (more : t ≤ v) :
    u.Leaves v entries :=
  ⟨leaves.fits, fun y member => (leaves.within y member).mono more⟩

theorem Update.leaves_fill {x : α} (within : Within t x) :
    (Update.fill (.real x)).Leaves t entries := by
  refine ⟨⟨x, rfl⟩, fun y member => ?_⟩
  obtain ⟨-, -, rfl⟩ := List.mem_map.mp member
  exact within

namespace Generator

variable [NearestScalar α] {n : Nat}

theorem uniformShare_within (positive : 0 < n) (short : n < 2 ^ 60) :
    Within 1 (uniformShare n : α) :=
  within_one.share positive short

theorem greedyValues_leaves {epsilon : α} {top : Nat} (unit : Within 1 epsilon)
    (positive : 0 < entries.length) (short : entries.length < 2 ^ 60) :
    (Update.assign (greedyValues epsilon top entries.length)).Leaves 2 entries := by
  have share := unit.share positive short
  have rest : Within 1 (1 - epsilon) := by
    have least : 0 ≤ value (1 : α) - value epsilon := by
      rw [NearestScalar.value_one]
      exact sub_nonneg.mpr unit.most
    have most : value (1 : α) - value epsilon ≤ 1 := by
      rw [NearestScalar.value_one]
      linarith [unit.least]
    have small : |value (1 : α) - value epsilon| ≤ limit := by
      rw [abs_of_nonneg least]
      exact most.trans one_le_limit
    exact .of_nearest (NearestScalar.sub OrderedScalar.isFinite_one unit.finite small) .one least most
  have two : (2 : ℝ) * 1 = 2 := mul_one 2
  have first : Within 2 (epsilon / ofNat entries.length + (1 - epsilon)) := by
    have power := IsValue.two_pow (α := α) (k := 1) (by norm_num)
    have large := two_pow_le_limit (k := 1) (by norm_num)
    rw [pow_one] at power large
    rw [← two] at power large ⊢
    exact share.add rest power large
  constructor
  · show (greedyValues epsilon top entries.length).length = _
    rw [greedyValues, List.length_modify, List.length_replicate]
  · intro y member
    obtain ⟨i, _, rfl⟩ := List.getElem_of_mem member
    simp only [Update.applied, greedyValues, List.getElem_modify, List.getElem_replicate]
    split
    · exact first
    · exact share.mono one_le_two

/-! ### Softmax -/

theorem shareAmong_leaves {marked : List Bool} (marks : marked.any id = true)
    (length : marked.length = entries.length) (short : entries.length < 2 ^ 60) :
    (Update.assign (shareAmong marked)).Leaves 1 entries := by
  refine ⟨(List.length_map _).trans length, fun y member => ?_⟩
  obtain ⟨m, -, rfl⟩ := List.mem_map.mp member
  have counted : 0 < marked.countP id := List.countP_pos_iff.mpr (List.any_eq_true.mp marks)
  have few : marked.countP id < 2 ^ 60 := List.countP_le_length.trans_lt (length ▸ short)
  have unit : Within 1 (if m then 1 else 0 : α) := by
    split
    · exact within_one
    · exact .zero zero_le_one
  exact unit.share counted few

/-- Weights are exponentials, so a finite one is not negative, and each is a part of their total. -/
theorem softmaxUpdate_leaves {rate : α} {scores : List α} (unsigned : ∀ x : α, ¬ exp x < 0)
    (nonempty : scores ≠ []) (length : scores.length = entries.length)
    (short : entries.length < 2 ^ 60) :
    (softmaxUpdate rate scores entries.length).Leaves 1 entries := by
  have positive : 0 < entries.length := length ▸ List.length_pos_of_ne_nil nonempty
  cases scores with
  | nil => exact absurd rfl nonempty
  | cons first rest =>
    unfold softmaxUpdate
    dsimp only
    split
    · rename_i dominant
      exact shareAmong_leaves dominant ((List.length_map _).trans length) short
    split
    · exact Update.leaves_fill (uniformShare_within positive short)
    rename_i normal
    simp only [Bool.or_eq_true, Bool.not_eq_true', decide_eq_true_iff, not_or,
      Bool.not_eq_false] at normal
    obtain ⟨⟨finite, total⟩, each⟩ := normal
    have natural : ∀ x ∈ (first :: rest).map (softWeight rate (referenceScore rate first rest)),
        0 ≤ x := by
      intro x member
      obtain ⟨score, -, rfl⟩ := List.mem_map.mp member
      exact OrderedScalar.le_of_not_lt OrderedScalar.isFinite_zero
        (List.all_eq_true.mp each _ member) (unsigned _)
    rw [NearestScalar.le_iff finite OrderedScalar.isFinite_zero, NearestScalar.value_zero,
      not_le] at total
    constructor
    · show (List.map _ (List.map _ _)).length = _
      rw [List.length_map, List.length_map, length]
    · intro y member
      obtain ⟨x, listed, rfl⟩ := List.mem_map.mp member
      have number := List.all_eq_true.mp each x listed
      have least := natural x listed
      have most := le_sum natural x listed
      rw [NearestScalar.le_iff OrderedScalar.isFinite_zero number, NearestScalar.value_zero] at least
      rw [NearestScalar.le_iff number finite] at most
      have part : Within (value (sum ((first :: rest).map
          (softWeight rate (referenceScore rate first rest))))) x := ⟨number, least, most⟩
      exact part.over finite total

/-! ### Votes -/

theorem tally_leaves {votes : List Int} (nonempty : votes ≠ []) (few : votes.length ≤ 2 ^ 60) :
    (Update.assign ((tally votes entries.length).map fun count =>
      (ofNat count / ofNat votes.length : α))).Leaves 1 entries := by
  constructor
  · show (List.map _ (List.map _ _)).length = _
    rw [List.length_map, List.length_map, List.length_range]
  · intro y member
    obtain ⟨count, counted, rfl⟩ := List.mem_map.mp member
    obtain ⟨i, -, rfl⟩ := List.mem_map.mp counted
    have less : votes.count (Int.ofNat i) ≤ votes.length := List.count_le_length
    have total := within_ofNat (α := α) few (by norm_num)
    have one := one_le_ofNat (α := α) (List.length_pos_of_ne_nil nonempty) few (by norm_num)
    have number := within_ofNat (α := α) (less.trans few) (by norm_num)
    have part : Within (value (ofNat votes.length : α)) (ofNat (votes.count (Int.ofNat i)) : α) :=
      ⟨number.finite, number.least, value_ofNat_le less few (by norm_num)⟩
    exact part.over total.finite (zero_lt_one.trans_le one)

end Generator

end SeededChoice
