import Mathlib.Algebra.Order.BigOperators.Group.List
import Mathlib.Data.Real.Basic
import Mathlib.Tactic.Linarith
import SeededChoice.Floor

/-!
# Levels

Enforcing a floor scales the eligible values down and raises them to a level, so that their mass
stays. For each level there is one way to do so, and two levels one after the other come to the
higher one.
-/

namespace SeededChoice.Floor

noncomputable section

/-- Positive numbers are eligible, and zero if zeros are to be raised too. -/
def eligible (zeros : Bool) (x : ℝ) : Bool := decide (0 < x) || (zeros && decide (x = 0))

def eligibles (zeros : Bool) (xs : List ℝ) : List ℝ := xs.filter (eligible zeros)

/-- What an eligible value becomes; the others stay. -/
def lift (zeros : Bool) (level factor x : ℝ) : ℝ :=
  if eligible zeros x then max level (x * factor) else x

/-- The eligible values are scaled down and raised to a level, and their mass stays. -/
def Levels (zeros : Bool) (level : ℝ) (xs ys : List ℝ) : Prop :=
  ∃ factor, 0 ≤ factor ∧ factor ≤ 1 ∧ ys = xs.map (lift zeros level factor) ∧
    (eligibles zeros ys).sum = (eligibles zeros xs).sum

/-- The floor, or the mean of the eligible values where they do not suffice for it. -/
def attainable (zeros : Bool) (floor : ℝ) (xs : List ℝ) : ℝ :=
  min floor ((eligibles zeros xs).sum / (eligibles zeros xs).length)

/-- Each eligible value is the same share of one. -/
def evened (zeros : Bool) (xs : List ℝ) : List ℝ :=
  xs.map fun x => if eligible zeros x then 1 / (eligibles zeros xs).length else x

end

/-! ### Eligible values -/

section
variable {zeros : Bool} {x level factor : ℝ} {xs ys zs : List ℝ}

theorem eligible_of_pos (positive : 0 < x) : eligible zeros x = true := by
  rw [eligible, decide_eq_true positive, Bool.true_or]

theorem nonneg_of_eligible (listed : eligible zeros x = true) : 0 ≤ x := by
  unfold eligible at listed
  rcases Bool.or_eq_true_iff.mp listed with positive | zero
  · exact le_of_lt (of_decide_eq_true positive)
  · exact le_of_eq (of_decide_eq_true (Bool.and_eq_true_iff.mp zero).2).symm

theorem eligibles_nonneg : ∀ x ∈ eligibles zeros xs, 0 ≤ x := by
  intro x member
  exact nonneg_of_eligible (List.mem_filter.mp member).2

/-- A map that keeps who is eligible acts on the eligible values by themselves. -/
theorem eligibles_map {f : ℝ → ℝ} (same : ∀ x, eligible zeros (f x) = eligible zeros x) :
    eligibles zeros (xs.map f) = (eligibles zeros xs).map f := by
  have composed : eligible zeros ∘ f = eligible zeros := funext same
  rw [eligibles, List.filter_map, composed, eligibles]

theorem eligible_lift (positive : 0 < level) (x : ℝ) :
    eligible zeros (lift zeros level factor x) = eligible zeros x := by
  unfold lift
  split
  · rename_i listed
    rw [listed, eligible_of_pos (lt_of_lt_of_le positive (le_max_left _ _))]
  · rfl

theorem eligibles_lift (positive : 0 < level) :
    eligibles zeros (xs.map (lift zeros level factor)) =
      (eligibles zeros xs).map fun x => max level (x * factor) := by
  rw [eligibles_map (eligible_lift positive)]
  apply List.map_congr_left
  intro x member
  exact if_pos (List.mem_filter.mp member).2

/-! ### One level -/

/-- Of two factors with the same mass, the larger one changes nothing more. -/
theorem map_lift_eq {more : ℝ} (less : factor ≤ more)
    (mass : ((eligibles zeros xs).map fun x => max level (x * factor)).sum =
      ((eligibles zeros xs).map fun x => max level (x * more)).sum) :
    xs.map (lift zeros level factor) = xs.map (lift zeros level more) := by
  have ordered : ∀ x ∈ eligibles zeros xs, max level (x * factor) ≤ max level (x * more) := by
    intro x member
    exact max_le_max_left level (mul_le_mul_of_nonneg_left less (eligibles_nonneg x member))
  apply List.map_congr_left
  intro x member
  unfold lift
  split
  · rename_i listed
    have inside : x ∈ eligibles zeros xs := List.mem_filter.mpr ⟨member, listed⟩
    by_contra different
    have smaller := List.sum_lt_sum _ _ ordered
      ⟨x, inside, lt_of_le_of_ne (ordered x inside) different⟩
    exact absurd mass (ne_of_lt smaller)
  · rfl

theorem Levels.unique (positive : 0 < level) (first : Levels zeros level xs ys)
    (second : Levels zeros level xs zs) : ys = zs := by
  obtain ⟨c, -, -, rfl, massC⟩ := first
  obtain ⟨d, -, -, rfl, massD⟩ := second
  have mass := massC.trans massD.symm
  rw [eligibles_lift positive, eligibles_lift positive] at mass
  rcases le_total c d with less | less
  · exact map_lift_eq less mass
  · exact (map_lift_eq less mass.symm).symm

/-- Values at the level or above are left as they are. -/
theorem levels_self (above : ∀ x ∈ eligibles zeros xs, level ≤ x) : Levels zeros level xs xs := by
  refine ⟨1, zero_le_one, le_refl 1, ?_, rfl⟩
  have each : ∀ x ∈ xs, lift zeros level 1 x = x := by
    intro x member
    unfold lift
    split
    · rename_i listed
      rw [mul_one, max_eq_right (above x (List.mem_filter.mpr ⟨member, listed⟩))]
    · rfl
  rw [List.map_congr_left each, List.map_id']

theorem Levels.le_of_mem (positive : 0 < level) (levels : Levels zeros level xs ys) :
    ∀ y ∈ eligibles zeros ys, level ≤ y := by
  obtain ⟨c, -, -, rfl, -⟩ := levels
  rw [eligibles_lift positive]
  intro y member
  obtain ⟨x, -, rfl⟩ := List.mem_map.mp member
  exact le_max_left _ _

theorem Levels.length_eq (levels : Levels zeros level xs ys) : ys.length = xs.length := by
  obtain ⟨c, -, -, rfl, -⟩ := levels
  exact List.length_map _

theorem Levels.length_eligibles (positive : 0 < level) (levels : Levels zeros level xs ys) :
    (eligibles zeros ys).length = (eligibles zeros xs).length := by
  obtain ⟨c, -, -, rfl, -⟩ := levels
  rw [eligibles_lift positive, List.length_map]

theorem Levels.sum_eq (levels : Levels zeros level xs ys) :
    (eligibles zeros ys).sum = (eligibles zeros xs).sum := levels.choose_spec.2.2.2

/-- What a floor can attain does not change as values are brought to a level. -/
theorem Levels.attainable_eq (positive : 0 < level) (levels : Levels zeros level xs ys)
    (floor : ℝ) : attainable zeros floor ys = attainable zeros floor xs := by
  rw [attainable, levels.sum_eq, levels.length_eligibles positive, attainable]

/-! ### Two levels -/

theorem Levels.trans {low high : ℝ} (positiveLow : 0 < low) (positiveHigh : 0 < high)
    (first : Levels zeros low xs ys) (second : Levels zeros high ys zs) :
    Levels zeros (max low high) xs zs := by
  rcases le_total high low with below | above
  · have enough : ∀ y ∈ eligibles zeros ys, high ≤ y := by
      intro y member
      exact below.trans (first.le_of_mem positiveLow y member)
    rw [max_eq_left below, second.unique positiveHigh (levels_self enough)]
    exact first
  · obtain ⟨c, leastC, mostC, rfl, massC⟩ := first
    obtain ⟨d, leastD, mostD, rfl, massD⟩ := second
    rw [max_eq_right above]
    refine ⟨c * d, mul_nonneg leastC leastD, mul_le_one₀ mostC leastD mostD, ?_,
      massD.trans massC⟩
    rw [List.map_map]
    apply List.map_congr_left
    intro x _
    -- What the first level added is below the second one, also before it is scaled.
    have covered : low * d ≤ high :=
      (mul_le_of_le_one_right (le_of_lt positiveLow) mostD).trans above
    show lift zeros high d (lift zeros low c x) = lift zeros high (c * d) x
    by_cases listed : eligible zeros x
    · rw [lift, eligible_lift positiveLow, if_pos listed, lift, if_pos listed, lift, if_pos listed,
        max_mul_of_nonneg _ _ leastD, ← max_assoc, max_eq_left covered, mul_assoc]
    · rw [lift, eligible_lift positiveLow, if_neg listed, lift, if_neg listed, lift, if_neg listed]

/-! ### The same share for each -/

@[simp] theorem length_evened : (evened zeros xs).length = xs.length := List.length_map _

theorem evened_map {f : ℝ → ℝ} (same : ∀ x, eligible zeros (f x) = eligible zeros x)
    (stays : ∀ x, ¬ eligible zeros x → f x = x) : evened zeros (xs.map f) = evened zeros xs := by
  unfold evened
  rw [eligibles_map same, List.length_map, List.map_map]
  apply List.map_congr_left
  intro x _
  show (if eligible zeros (f x) then _ else f x) = _
  rw [same]
  split
  · rfl
  · rename_i excluded
    exact stays x excluded

theorem Levels.evened_eq (positive : 0 < level) (levels : Levels zeros level xs ys) :
    evened zeros ys = evened zeros xs := by
  obtain ⟨c, -, -, rfl, -⟩ := levels
  exact evened_map (eligible_lift positive) fun x excluded => if_neg excluded

section
variable (present : eligibles zeros xs ≠ [])
include present

theorem length_eligibles_pos : (0 : ℝ) < (eligibles zeros xs).length :=
  Nat.cast_pos.mpr (List.length_pos_of_ne_nil present)

theorem eligible_share (x : ℝ) :
    eligible zeros (if eligible zeros x then 1 / ((eligibles zeros xs).length : ℝ) else x) =
      eligible zeros x := by
  split
  · rename_i listed
    rw [listed, eligible_of_pos (one_div_pos.mpr (length_eligibles_pos present))]
  · rfl

theorem eligibles_evened :
    eligibles zeros (evened zeros xs) =
      (eligibles zeros xs).map fun _ => 1 / ((eligibles zeros xs).length : ℝ) := by
  rw [evened, eligibles_map (eligible_share present)]
  apply List.map_congr_left
  intro x member
  exact if_pos (List.mem_filter.mp member).2

theorem evened_evened : evened zeros (evened zeros xs) = evened zeros xs :=
  evened_map (eligible_share present) fun _ excluded => if_neg excluded

theorem length_eligibles_evened :
    (eligibles zeros (evened zeros xs)).length = (eligibles zeros xs).length := by
  rw [eligibles_evened present, List.length_map]

theorem sum_eligibles_evened : (eligibles zeros (evened zeros xs)).sum = 1 := by
  rw [eligibles_evened present, List.map_const', List.sum_replicate, nsmul_eq_mul,
    mul_one_div_cancel (ne_of_gt (length_eligibles_pos present))]

end

end

end SeededChoice.Floor
