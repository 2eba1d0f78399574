import SeededChoice.Proofs.Buffer.Writing
import SeededChoice.Proofs.Floor.Passes

/-!
# Enforcing a floor

The passes end on the attainable level: the floor itself, or the mean of the eligible values where
their mass does not suffice. Only a floor above the uniform threshold, and values without mass, make
all eligible values equal.
-/

namespace SeededChoice.Floor

variable {zeros : Bool} {low : ℝ → Bool} {xs : List ℝ} {floor target factor : ℝ}

/-! ### Where passes end -/

theorem levels_spread (positive : 0 < (eligibles zeros xs).sum)
    (short : (eligibles zeros xs).sum ≤ floor * (eligibles zeros xs).length)
    (present : eligibles zeros xs ≠ []) :
    Levels zeros (attainable zeros floor xs) xs (xs.map fun x =>
      if eligible zeros x then (eligibles zeros xs).sum / (eligibles zeros xs).length else x) := by
  have count := length_eligibles_pos present
  have mean : 0 < (eligibles zeros xs).sum / (eligibles zeros xs).length := div_pos positive count
  have level : attainable zeros floor xs =
      (eligibles zeros xs).sum / (eligibles zeros xs).length :=
    min_eq_right ((div_le_iff₀ count).mpr short)
  have lifted : ∀ x, lift zeros (attainable zeros floor xs) 0 x =
      if eligible zeros x then (eligibles zeros xs).sum / (eligibles zeros xs).length else x := by
    intro x
    rw [lift, mul_zero, level, max_eq_left (le_of_lt mean)]
  simp only [← lifted]
  refine ⟨0, le_refl 0, zero_le_one, rfl, ?_⟩
  rw [eligibles_lift (level ▸ mean), level]
  simp only [mul_zero, max_eq_left (le_of_lt mean)]
  rw [List.map_const', List.sum_replicate, nsmul_eq_mul, mul_div_cancel₀ _ (ne_of_gt count)]

theorem levels_settled (positive : 0 < floor) (present : eligibles zeros xs ≠ [])
    (settling : Settling floor (eligibles zeros xs).sum (eligibles zeros xs) low factor)
    (met : ((eligibles zeros xs).map (settled floor factor low)).sum = (eligibles zeros xs).sum)
    (free : (eligibles zeros xs).any (fun v => !low v) = true)
    (steady : ∀ v ∈ eligibles zeros xs, low v = false → floor ≤ v * factor) :
    Levels zeros (attainable zeros floor xs) xs (xs.map fun x =>
      if eligible zeros x then settled floor factor low x else x) := by
  have same := settling.settled_eq_max steady
  have natural : 0 ≤ factor := by
    obtain ⟨v, member, notLow⟩ := List.any_eq_true.mp free
    rw [Bool.not_eq_true'] at notLow
    have scaled := positive.trans_le (steady v member notLow)
    have high := positive.trans (settling.above v member notLow)
    exact le_of_lt ((mul_pos_iff_of_pos_left high).mp scaled)
  have enough : floor * (eligibles zeros xs).length ≤ (eligibles zeros xs).sum := by
    rw [← met, mul_comm, ← nsmul_eq_mul, ← List.length_map (settled floor factor low)]
    apply List.card_nsmul_le_sum
    intro y member
    obtain ⟨v, listed, rfl⟩ := List.mem_map.mp member
    rw [same v listed]
    exact le_max_left _ _
  have level : attainable zeros floor xs = floor :=
    min_eq_left ((le_div_iff₀ (length_eligibles_pos present)).mpr enough)
  have lifted : xs.map (fun x => if eligible zeros x then settled floor factor low x else x) =
      xs.map (lift zeros floor factor) := by
    apply List.map_congr_left
    intro x member
    unfold lift
    split
    · rename_i listed
      exact same x (List.mem_filter.mpr ⟨member, listed⟩)
    · rfl
  rw [level, lifted]
  refine ⟨factor, natural, settling.most, rfl, ?_⟩
  rw [eligibles_lift positive, ← List.map_congr_left same, met]

section
variable [Exponential]

theorem pass_spread (full : (eligibles zeros xs).any (fun v => !low v) = false) :
    pass (.finite floor) (.finite target) (xs.map (entry zeros low)) =
      .done (spread (.finite target) (xs.map (entry zeros low))) := by
  rw [pass, any_isFree, full]
  rfl

theorem passes_spread (full : (eligibles zeros xs).any (fun v => !low v) = false) (fuel : Nat) :
    passes (.finite floor) (.finite target) fuel (xs.map (entry zeros low)) =
      spread (.finite target) (xs.map (entry zeros low)) := by
  cases fuel with
  | zero => rfl
  | succ fuel => rw [passes, pass_spread full]

theorem pass_scale (free : (eligibles zeros xs).any (fun v => !low v) = true)
    (mass : 0 < freeSum low (eligibles zeros xs))
    (factored : factorOf floor target low (eligibles zeros xs) = factor) :
    pass (.finite floor) (.finite target) (xs.map (entry zeros low)) =
      if (eligibles zeros xs).any (fun v => !low v && decide (v * factor < floor)) then
        .again (xs.map (entry zeros fun v => low v || decide (v * factor < floor)))
      else
        .done ((xs.map fun x =>
          if eligible zeros x then settled floor factor low x else x).map .finite) := by
  have sinking : (xs.map (entry zeros low)).any (sinks (.finite floor) (.finite factor)) =
      (eligibles zeros xs).any fun v => !low v && decide (v * factor < floor) := by
    rw [List.any_map, eligibles, List.any_filter]
    refine congrArg _ (funext fun x => ?_)
    rw [Function.comp_apply, sinks_entry, Bool.and_assoc]
  have positive : decide (freeMass (xs.map (entry zeros low)) ≤ 0) = false := by
    rw [decide_eq_false_iff_not, freeMass_finite, Exact.zero_eq, Exact.finite_le]
    exact not_le.mpr mass
  have pinned : (xs.map (entry zeros low)).map (fun e =>
      if sinks (.finite floor) (.finite factor) e then { e with role := .pinned } else e) =
      xs.map (entry zeros fun v => low v || decide (v * factor < floor)) := by
    rw [List.map_map]
    exact List.map_congr_left fun x _ => pin_entry floor factor x
  have scaled : (xs.map (entry zeros low)).map (settle (.finite floor) (.finite factor)) =
      (xs.map fun x => if eligible zeros x then settled floor factor low x else x).map
        Exact.finite := by
    rw [List.map_map, List.map_map]
    exact List.map_congr_left fun x _ => settle_entry floor factor x
  rw [pass, any_isFree, free, positive, ratio_finite floor target (ne_of_gt mass), factored]
  simp only [Bool.not_true, Bool.or_false, Bool.false_eq_true, if_false, sinking, pinned, scaled]

theorem passes_ended (mass : 0 < (eligibles zeros xs).sum) (present : eligibles zeros xs ≠ [])
    (settling : Settling floor (eligibles zeros xs).sum (eligibles zeros xs) low factor)
    (full : (eligibles zeros xs).any (fun v => !low v) = false) (fuel : Nat) :
    ∃ ys, passes (.finite floor) (.finite (eligibles zeros xs).sum) fuel
        (xs.map (entry zeros low)) = ys.map .finite ∧
      Levels zeros (attainable zeros floor xs) xs ys := by
  refine ⟨_, ?_, levels_spread mass (settling.le_of_full full) present⟩
  rw [passes_spread full, spread_finite _ present]

/-- The passes end on the attainable level before they are used up, as a pass that goes on leaves
fewer values free. -/
theorem passes_levels (fuel : Nat) (positive : 0 < floor) (mass : 0 < (eligibles zeros xs).sum)
    (present : eligibles zeros xs ≠ [])
    (settling : Settling floor (eligibles zeros xs).sum (eligibles zeros xs) low factor)
    (enough : (eligibles zeros xs).countP (fun v => !low v) ≤ fuel) :
    ∃ ys, passes (.finite floor) (.finite (eligibles zeros xs).sum) fuel
        (xs.map (entry zeros low)) = ys.map .finite ∧
      Levels zeros (attainable zeros floor xs) xs ys := by
  induction fuel generalizing low factor with
  | zero =>
    -- No pass is left, and none is needed, since no value is free any more.
    refine passes_ended mass present settling ?_ 0
    rw [List.any_eq_false]
    exact List.countP_eq_zero.mp (Nat.le_zero.mp enough)
  | succ fuel ih =>
    cases free : (eligibles zeros xs).any (fun v => !low v) with
    | false => exact passes_ended mass present settling free _
    | true =>
      have rest := settling.freeSum_pos positive free
      have rescaled := settling.rescale eligibles_nonneg rest
      have met := sum_settled_factorOf floor (eligibles zeros xs).sum (ne_of_gt rest)
      generalize factored : factorOf floor (eligibles zeros xs).sum low (eligibles zeros xs) =
        next at rescaled met
      rw [passes, pass_scale free rest factored]
      cases sinking : (eligibles zeros xs).any
          (fun v => !low v && decide (v * next < floor)) with
      | true =>
        have fewer := countP_unsunk_lt sinking
        simp only [← Bool.not_or] at fewer
        exact ih rescaled.pin (by omega)
      | false =>
        refine ⟨_, rfl, levels_settled positive present rescaled met free ?_⟩
        intro v member notLow
        have floats := List.any_eq_false.mp sinking v member
        simpa [notLow] using floats

/-! ### Enforcing -/

theorem map_start_finite (zeros : Bool) (floor : ℝ) (xs : List ℝ) :
    (xs.map Exact.finite).map (start zeros (.finite floor)) =
      xs.map (entry zeros fun x => decide (x ≤ floor)) := by
  rw [List.map_map]
  exact List.map_congr_left fun x _ => start_finite zeros floor x

theorem filter_isEligible (zeros : Bool) (xs : List ℝ) :
    (xs.map Exact.finite).filter (isEligible zeros) = (eligibles zeros xs).map Exact.finite := by
  have composed : isEligible zeros ∘ Exact.finite = eligible zeros :=
    funext (isEligible_finite zeros)
  rw [List.filter_map, composed, eligibles]

theorem raise_levels {minimum : ℝ} {n : Nat} (positive : 0 < minimum) (nonzero : n ≠ 0)
    (mass : 0 < (eligibles zeros xs).sum) (present : eligibles zeros xs ≠ []) :
    ∃ ys, raise (Exact.finite minimum) zeros (xs.map .finite) n = ys.map .finite ∧
      Levels zeros (attainable zeros (minimum / n) xs) xs ys := by
  have count : (0 : ℝ) < n := Nat.cast_pos.mpr (Nat.pos_of_ne_zero nonzero)
  have target : ¬ Exact.finite (eligibles zeros xs).sum ≤ 0 := by
    rw [Exact.zero_eq, Exact.finite_le]
    exact not_le.mpr mass
  have enough : (eligibles zeros xs).countP (fun v => !decide (v ≤ minimum / n)) ≤
      (xs.map Exact.finite).length := by
    rw [List.length_map]
    exact List.countP_le_length.trans (List.length_filter_le _ _)
  rw [raise, filter_isEligible, Exact.sum_finite, Exact.ofNat_eq,
    Exact.finite_div _ (ne_of_gt count), map_start_finite]
  simp only [if_neg target]
  exact passes_levels _ (div_pos positive count) mass present (settling_start _ _) enough

/-- Without mass, all eligible values are zero, and get the same share of one. -/
theorem raise_evened {minimum : ℝ} {n : Nat} (positive : 0 < minimum) (nonzero : n ≠ 0)
    (massless : (eligibles zeros xs).sum = 0) (present : eligibles zeros xs ≠ []) :
    raise (Exact.finite minimum) zeros (xs.map .finite) n = (evened zeros xs).map .finite := by
  have count : (0 : ℝ) < n := Nat.cast_pos.mpr (Nat.pos_of_ne_zero nonzero)
  have target : Exact.finite (eligibles zeros xs).sum ≤ 0 := by
    rw [Exact.zero_eq, Exact.finite_le, massless]
  have full : (eligibles zeros xs).any (fun v => !decide (v ≤ minimum / n)) = false := by
    rw [List.any_eq_false]
    intro v member free
    rw [Bool.not_eq_true', decide_eq_false_iff_not, not_le] at free
    have least := List.single_le_sum eligibles_nonneg v member
    rw [massless] at least
    exact absurd (div_pos positive count) (not_lt.mpr (le_of_lt (free.trans_le least)))
  rw [raise, filter_isEligible, Exact.sum_finite, Exact.ofNat_eq,
    Exact.finite_div _ (ne_of_gt count), map_start_finite]
  simp only [if_pos target]
  rw [Exact.one_eq, passes_spread full, spread_finite _ present, evened]

theorem level_finite (present : eligibles zeros xs ≠ []) :
    level zeros (xs.map Exact.finite) = (evened zeros xs).map Exact.finite := by
  rw [level, List.countP_eq_length_filter, filter_isEligible, List.length_map, Exact.ofNat_eq,
    Exact.one_eq, Exact.finite_div _ (ne_of_gt (length_eligibles_pos present)), evened,
    List.map_map, List.map_map]
  apply List.map_congr_left
  intro x _
  rw [Function.comp_apply, isEligible_finite, Function.comp_apply, apply_ite Exact.finite]

theorem uniformThreshold_finite : (uniformThreshold : Exact) = .finite (999 / 1000) := by
  rw [uniformThreshold, Exact.ofNat_eq, Exact.ofNat_eq, Exact.finite_div _ (by norm_num)]
  norm_num

/-- What values become under a floor: as they are if there is nothing to do, equal where it counts
as uniform or where there is no mass, and otherwise on the attainable level. -/
def Enforced (zeros : Bool) (minimum : ℝ) (xs ys : List ℝ) : Prop :=
  if eligibles zeros xs = [] ∨ minimum = 0 then ys = xs
  else if (eligibles zeros xs).sum = 0 ∨ 999 / 1000 < minimum then ys = evened zeros xs
  else Levels zeros (attainable zeros (minimum / xs.length) xs) xs ys

section
variable {b : Buffer Exact} {minimum : ℝ} (flat : b.rows = none)
  (entries : b.entries = xs.map Exact.finite) (nonempty : xs ≠ []) (least : 0 ≤ minimum)
  (most : minimum ≤ 1)
include flat entries nonempty least most

/-- Past the checks, what is left is whether there is anything to do and which way. -/
theorem enforce_checked :
    enforce (.real (.finite minimum)) zeros b =
      .ok (.accept (if eligibles zeros xs = [] ∨ minimum = 0 then .keep
        else if 999 / 1000 < minimum then .assign (level zeros (xs.map .finite))
        else .assign (raise (.finite minimum) zeros (xs.map .finite) xs.length))) := by
  have size : b.length = xs.length := by
    rw [Buffer.length_flat flat, entries, List.length_map]
  have nonzero : xs.length ≠ 0 := (List.length_pos_of_ne_nil nonempty).ne'
  have inside : Scalar.inUnitInterval (Exact.finite minimum) = true :=
    (Exact.inUnitInterval_iff _).mpr ⟨minimum, rfl, least, most⟩
  have finite : (xs.map Exact.finite).all Scalar.isFinite = true :=
    (Exact.all_isFinite_iff _).mpr ⟨xs, rfl⟩
  have idle : (!(xs.map Exact.finite).any (isEligible zeros) || Exact.finite minimum == 0) = true ↔
      eligibles zeros xs = [] ∨ minimum = 0 := by
    rw [Bool.or_eq_true, List.any_map, Exact.zero_eq, Exact.finite_beq, decide_eq_true_iff,
      Bool.not_eq_true', List.any_eq_false, eligibles, List.filter_eq_nil_iff]
    simp only [Function.comp_apply, isEligible_finite]
  unfold enforce
  simp only [Argument.toReal, bind, Except.bind, pure, Except.pure, entries, size, inside, finite,
    decide_eq_false nonzero, idle, uniformThreshold_finite, Exact.finite_lt, Bool.not_true,
    Bool.or_false, Bool.false_eq_true, if_false]
  split
  · rfl
  · split
    · rfl
    · rfl

variable (zeros) in
theorem enforce_finite :
    ∃ u ys, enforce (.real (.finite minimum)) zeros b = .ok (.accept u) ∧ u.Fits xs.length ∧
      u.applied b.entries = ys.map .finite ∧ Enforced zeros minimum xs ys := by
  rw [enforce_checked flat entries nonempty least most]
  by_cases idle : eligibles zeros xs = [] ∨ minimum = 0
  · rw [if_pos idle]
    refine ⟨.keep, xs, rfl, trivial, entries, ?_⟩
    rw [Enforced, if_pos idle]
  obtain ⟨present, nonzero⟩ := not_or.mp idle
  have positive := lt_of_le_of_ne least (Ne.symm nonzero)
  have count : xs.length ≠ 0 := (List.length_pos_of_ne_nil nonempty).ne'
  rw [if_neg idle]
  by_cases uniform : 999 / 1000 < minimum
  · rw [if_pos uniform, level_finite present]
    refine ⟨_, _, rfl, by simp [Update.Fits], rfl, ?_⟩
    rw [Enforced, if_neg idle, if_pos (Or.inr uniform)]
  rw [if_neg uniform]
  by_cases massless : (eligibles zeros xs).sum = 0
  · rw [raise_evened positive count massless present]
    refine ⟨_, _, rfl, by simp [Update.Fits], rfl, ?_⟩
    rw [Enforced, if_neg idle, if_pos (Or.inl massless)]
  · have mass := lt_of_le_of_ne (List.sum_nonneg eligibles_nonneg) (Ne.symm massless)
    obtain ⟨ys, raised, levels⟩ := raise_levels positive count mass present
    rw [raised]
    refine ⟨_, ys, rfl, by simp [Update.Fits, levels.length_eq], rfl, ?_⟩
    rw [Enforced, if_neg idle, if_neg (not_or.mpr ⟨massless, uniform⟩)]
    exact levels

end

end

end SeededChoice.Floor
