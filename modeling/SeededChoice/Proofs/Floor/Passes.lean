import SeededChoice.Proofs.Exact.Sum
import SeededChoice.Proofs.Floor.Level

/-!
# Passes

The factor of a pass never exceeds that of the pass before. So what was once held at the floor stays
below it, and where the passes end, the eligible values are on a level.
-/

namespace SeededChoice.Floor

/-! ### The factor of a pass -/

noncomputable section

/-- An eligible value that is held at the floor if it is low, and scaled otherwise. -/
def settled (floor factor : ℝ) (low : ℝ → Bool) (v : ℝ) : ℝ := if low v then floor else v * factor

/-- The mass of the values that are not low. -/
def freeSum (low : ℝ → Bool) (values : List ℝ) : ℝ := (values.filter fun v => !low v).sum

/-- The factor that makes the settled values add up to the target. -/
def factorOf (floor target : ℝ) (low : ℝ → Bool) (values : List ℝ) : ℝ :=
  (target - floor * values.countP low) / freeSum low values

end

/-- What holds between two passes: under a factor of at most one, low values are at most at the
floor and the target is not yet missed. -/
structure Settling (floor target : ℝ) (values : List ℝ) (low : ℝ → Bool) (factor : ℝ) : Prop where
  most : factor ≤ 1
  sunk : ∀ v ∈ values, low v = true → v * factor ≤ floor
  above : ∀ v ∈ values, low v = false → floor < v
  reach : target ≤ (values.map (settled floor factor low)).sum

section
variable {floor target factor : ℝ} {values : List ℝ} {low : ℝ → Bool}

theorem sum_settled (floor factor : ℝ) (low : ℝ → Bool) (values : List ℝ) :
    (values.map (settled floor factor low)).sum =
      floor * values.countP low + freeSum low values * factor := by
  induction values with
  | nil => simp [freeSum]
  | cons v rest ih =>
    rw [List.map_cons, List.sum_cons, ih]
    cases held : low v with
    | false =>
      simp only [settled, freeSum, held, List.countP_cons, List.filter_cons, List.sum_cons,
        Bool.not_false, Bool.false_eq_true, if_false, if_true]
      push_cast
      ring
    | true =>
      simp only [settled, freeSum, held, List.countP_cons, List.filter_cons, Bool.not_true,
        Bool.false_eq_true, if_false, if_true]
      push_cast
      ring

theorem settling_start (floor : ℝ) (values : List ℝ) :
    Settling floor values.sum values (fun v => decide (v ≤ floor)) 1 := by
  refine ⟨le_refl 1, ?_, ?_, ?_⟩
  · intro v _ held
    rw [mul_one]
    exact of_decide_eq_true held
  · intro v _ free
    exact lt_of_not_ge (of_decide_eq_false free)
  · rw [← List.map_id' values, List.map_map]
    apply List.sum_le_sum
    intro v _
    show v ≤ settled floor 1 _ v
    unfold settled
    split
    · rename_i held
      exact of_decide_eq_true held
    · rw [mul_one]

theorem Settling.freeSum_pos (settling : Settling floor target values low factor)
    (positive : 0 < floor) (free : values.any (fun v => !low v) = true) :
    0 < freeSum low values := by
  obtain ⟨v, member, notLow⟩ := List.any_eq_true.mp free
  apply List.sum_pos
  · intro u listed
    obtain ⟨inside, notLow⟩ := List.mem_filter.mp listed
    exact positive.trans (settling.above u inside (by simpa using notLow))
  · exact List.ne_nil_of_mem (List.mem_filter.mpr ⟨member, notLow⟩)

theorem sum_settled_factorOf (floor target : ℝ) (nonzero : freeSum low values ≠ 0) :
    (values.map (settled floor (factorOf floor target low values) low)).sum = target := by
  rw [sum_settled, factorOf, mul_div_cancel₀ _ nonzero, add_sub_cancel]

/-- The factor that meets the target is not above one that reaches it. -/
theorem Settling.rescale (settling : Settling floor target values low factor)
    (natural : ∀ v ∈ values, 0 ≤ v) (free : 0 < freeSum low values) :
    Settling floor target values low (factorOf floor target low values) := by
  have met := sum_settled_factorOf floor target (ne_of_gt free)
  -- Both factors are held against the same sum of what is settled.
  have less : factorOf floor target low values ≤ factor := by
    have reach := settling.reach
    rw [← met, sum_settled, sum_settled] at reach
    exact le_of_mul_le_mul_left (le_of_add_le_add_left reach) free
  refine ⟨less.trans settling.most, ?_, settling.above, le_of_eq met.symm⟩
  intro v member held
  exact (mul_le_mul_of_nonneg_left less (natural v member)).trans (settling.sunk v member held)

/-- What sinks under the factor becomes low. -/
theorem Settling.pin (settling : Settling floor target values low factor) :
    Settling floor target values (fun v => low v || decide (v * factor < floor)) factor := by
  refine ⟨settling.most, ?_, ?_, ?_⟩
  · intro v member held
    rcases Bool.or_eq_true_iff.mp held with before | sinks
    · exact settling.sunk v member before
    · exact le_of_lt (of_decide_eq_true sinks)
  · intro v member free
    exact settling.above v member (Bool.or_eq_false_iff.mp free).1
  · refine settling.reach.trans (List.sum_le_sum ?_)
    intro v _
    unfold settled
    cases held : low v with
    | true => simp [held]
    | false =>
      by_cases sinks : v * factor < floor
      · simp [sinks, le_of_lt sinks]
      · simp [held, sinks]

theorem Settling.settled_eq_max (settling : Settling floor target values low factor)
    (steady : ∀ v ∈ values, low v = false → floor ≤ v * factor) :
    ∀ v ∈ values, settled floor factor low v = max floor (v * factor) := by
  intro v member
  unfold settled
  cases held : low v with
  | true => exact (max_eq_left (settling.sunk v member held)).symm
  | false => exact (max_eq_right (steady v member held)).symm

theorem Settling.le_of_full (settling : Settling floor target values low factor)
    (full : values.any (fun v => !low v) = false) : target ≤ floor * values.length := by
  have held : ∀ v ∈ values, low v = true := by
    intro v member
    simpa using List.any_eq_false.mp full v member
  have emptied : values.filter (fun v => !low v) = [] := by
    rw [List.filter_eq_nil_iff]
    intro v member
    simp [held v member]
  have reach := settling.reach
  rw [sum_settled, freeSum, emptied, List.sum_nil, zero_mul, add_zero,
    List.countP_eq_length.mpr held] at reach
  exact reach

/-- Where something free sinks, fewer are free after it is pinned. -/
theorem countP_unsunk_lt {β : Type} {xs : List β} {free sinking : β → Bool}
    (sunk : xs.any (fun x => free x && sinking x) = true) :
    xs.countP (fun x => free x && !sinking x) < xs.countP free := by
  have parts := List.countP_eq_countP_filter_add xs free sinking
  rw [List.countP_filter, List.countP_filter] at parts
  have sunk : 0 < xs.countP fun x => free x && sinking x := by
    obtain ⟨x, member, sinks⟩ := List.any_eq_true.mp sunk
    exact List.countP_pos_iff.mpr ⟨x, member, sinks⟩
  omega

end

/-! ### Passes over finite entries -/

section
variable {zeros : Bool} {low : ℝ → Bool} {xs : List ℝ}

/-- A number with the role it has while some numbers are low. -/
noncomputable def entry (zeros : Bool) (low : ℝ → Bool) (x : ℝ) : Entry Exact where
  value := .finite x
  role := if eligible zeros x then if low x then .pinned else .free else .excluded

theorem isFree_entry (x : ℝ) : (entry zeros low x).isFree = (eligible zeros x && !low x) := by
  unfold entry Entry.isFree
  cases eligible zeros x <;> cases low x <;> rfl

theorem isPinned_entry (x : ℝ) : (entry zeros low x).isPinned = (eligible zeros x && low x) := by
  unfold entry Entry.isPinned
  cases eligible zeros x <;> cases low x <;> rfl

theorem isEligible_entry (x : ℝ) : (entry zeros low x).isEligible = eligible zeros x := by
  unfold entry Entry.isEligible
  cases eligible zeros x <;> cases low x <;> rfl

theorem any_isFree : (xs.map (entry zeros low)).any Entry.isFree =
    (eligibles zeros xs).any fun v => !low v := by
  rw [List.any_map, eligibles, List.any_filter]
  exact congrArg _ (funext isFree_entry)

theorem countP_isPinned : (xs.map (entry zeros low)).countP Entry.isPinned =
    (eligibles zeros xs).countP low := by
  rw [List.countP_map, eligibles, List.countP_filter]
  apply List.countP_congr
  intro x _
  rw [Function.comp_apply, isPinned_entry, Bool.and_comm]

theorem countP_isEligible : (xs.map (entry zeros low)).countP Entry.isEligible =
    (eligibles zeros xs).length := by
  rw [List.countP_map, eligibles, ← List.countP_eq_length_filter]
  exact congrFun (congrArg _ (funext isEligible_entry)) _

variable [Exponential]

theorem isEligible_finite (zeros : Bool) (x : ℝ) :
    isEligible zeros (Exact.finite x) = eligible zeros x := by
  rw [isEligible, eligible, Exact.zero_eq, Exact.finite_beq]
  simp only [Exact.finite_lt]

theorem start_finite (zeros : Bool) (floor x : ℝ) :
    start zeros (.finite floor) (.finite x) = entry zeros (fun x => decide (x ≤ floor)) x := by
  simp only [start, entry, isEligible_finite, Exact.finite_le, Bool.not_eq_true',
    decide_eq_true_iff]
  cases eligible zeros x with
  | false => rfl
  | true => rfl

theorem freeMass_finite : freeMass (xs.map (entry zeros low)) =
    .finite (freeSum low (eligibles zeros xs)) := by
  have values : ((xs.map (entry zeros low)).filter Entry.isFree).map Entry.value =
      ((eligibles zeros xs).filter fun v => !low v).map Exact.finite := by
    have free : Entry.isFree ∘ entry zeros low = fun x => !low x && eligible zeros x :=
      funext fun x => (isFree_entry x).trans (Bool.and_comm _ _)
    rw [List.filter_map, List.map_map, free, eligibles, List.filter_filter]
    rfl
  rw [freeMass, values, Exact.sum_finite, freeSum]

theorem ratio_finite (floor target : ℝ) (nonzero : freeSum low (eligibles zeros xs) ≠ 0) :
    ratio (.finite floor) (.finite target) (xs.map (entry zeros low)) =
      .finite (factorOf floor target low (eligibles zeros xs)) := by
  rw [ratio, countP_isPinned, freeMass_finite, Exact.ofNat_eq, Exact.finite_mul, Exact.finite_sub,
    Exact.finite_div _ nonzero, factorOf]

theorem spread_finite (target : ℝ) (present : eligibles zeros xs ≠ []) :
    spread (.finite target) (xs.map (entry zeros low)) =
      (xs.map fun x => if eligible zeros x then target / (eligibles zeros xs).length else x).map
        Exact.finite := by
  rw [spread, countP_isEligible, Exact.ofNat_eq,
    Exact.finite_div _ (ne_of_gt (length_eligibles_pos present)), List.map_map, List.map_map]
  apply List.map_congr_left
  intro x _
  rw [Function.comp_apply, isEligible_entry, Function.comp_apply, apply_ite Exact.finite]
  rfl

theorem sinks_entry (floor factor x : ℝ) :
    sinks (.finite floor) (.finite factor) (entry zeros low x) =
      (eligible zeros x && !low x && decide (x * factor < floor)) := by
  rw [sinks, isFree_entry]
  simp only [entry, Exact.finite_mul, Exact.finite_lt]

theorem settle_entry (floor factor x : ℝ) :
    settle (.finite floor) (.finite factor) (entry zeros low x) =
      .finite (if eligible zeros x then settled floor factor low x else x) := by
  unfold settle entry settled
  cases eligible zeros x <;> cases low x <;> rfl

theorem pin_entry (floor factor x : ℝ) :
    (if sinks (.finite floor) (.finite factor) (entry zeros low x) then
      { entry zeros low x with role := .pinned } else entry zeros low x) =
      entry zeros (fun v => low v || decide (v * factor < floor)) x := by
  rw [sinks_entry]
  unfold entry
  cases eligible zeros x with
  | false => rfl
  | true =>
    cases held : low x with
    | true => simp [held]
    | false =>
      by_cases less : x * factor < floor
      · simp [less]
      · simp [held, less]

end

end SeededChoice.Floor
