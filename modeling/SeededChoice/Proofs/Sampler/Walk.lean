import SeededChoice.Proofs.Exact.Sum
import SeededChoice.Sampler.Selection

/-!
# The walk over running sums

Where the running sums past a draw come last, bisection finds the first of them. For weights that
are not negative this is the interval of running sums that holds the draw.
-/

namespace SeededChoice.Selection

section
variable {α : Type} [Scalar α] {draw : α} {sums : Array α}

/-- Whether the running sum at a position is past the draw. -/
def past (draw : α) (sums : Array α) (i : Nat) : Bool := isPast draw (sums.getD i 0)

/-- The sums past the draw come last. -/
def Ascending (draw : α) (sums : Array α) : Prop :=
  ∀ i j, i ≤ j → j < sums.size → past draw sums i = true → past draw sums j = true

/-- The first sum past the draw lies between two positions. -/
structure Bracket (draw : α) (sums : Array α) (low high : Nat) : Prop where
  ordered : low ≤ high
  inside : high ≤ sums.size
  before : ∀ i, i < low → past draw sums i = false
  beyond : ∀ i, high ≤ i → i < sums.size → past draw sums i = true

theorem bracket_whole (draw : α) (sums : Array α) : Bracket draw sums 0 sums.size :=
  ⟨Nat.zero_le _, Nat.le_refl _, fun i below => absurd below (Nat.not_lt_zero i),
    fun _ above inside => absurd inside (Nat.not_lt.mpr above)⟩

theorem bracket_lower {low high middle : Nat} (ascending : Ascending draw sums)
    (bracket : Bracket draw sums low high) (least : low ≤ middle) (less : middle < high)
    (reached : past draw sums middle = true) : Bracket draw sums low middle := by
  refine ⟨least, Nat.le_trans (Nat.le_of_lt less) bracket.inside, bracket.before, ?_⟩
  intro i above inside
  exact ascending middle i above inside reached

theorem bracket_upper {low high middle : Nat} (ascending : Ascending draw sums)
    (bracket : Bracket draw sums low high) (less : middle < high)
    (reached : past draw sums middle = false) : Bracket draw sums (middle + 1) high := by
  refine ⟨less, bracket.inside, ?_, bracket.beyond⟩
  intro i below
  by_contra earlier
  have later := ascending i middle (Nat.le_of_lt_succ below)
    (Nat.lt_of_lt_of_le less bracket.inside) (Bool.not_eq_false _ ▸ earlier)
  rw [reached] at later
  exact Bool.false_ne_true later

/-- Each halving keeps the bracket, and there are enough of them to close it. -/
theorem bracket_bisect {halvings low high : Nat} (ascending : Ascending draw sums)
    (bracket : Bracket draw sums low high) (enough : high - low ≤ halvings) :
    Bracket draw sums (bisect draw sums halvings low high)
      (bisect draw sums halvings low high) := by
  induction halvings generalizing low high with
  | zero =>
    have ordered := bracket.ordered
    obtain rfl : low = high := by omega
    exact bracket
  | succ halvings ih =>
    rw [bisect]
    split
    · rename_i less
      dsimp only
      split
      · rename_i reached
        exact ih (bracket_lower ascending bracket (by omega) (by omega) reached) (by omega)
      · rename_i reached
        exact ih (bracket_upper ascending bracket (by omega) (Bool.not_eq_true _ ▸ reached))
          (by omega)
    · rename_i met
      have ordered := bracket.ordered
      obtain rfl : low = high := by omega
      exact bracket

/-- The closed bracket, cut down to the last weight, is what is selected. -/
theorem exists_select {weights : List α}
    (ascending : Ascending draw (Scalar.runningSums weights).toArray) :
    ∃ found, Bracket draw (Scalar.runningSums weights).toArray found found ∧
      select weights draw = min found (weights.length - 1) :=
  ⟨_, bracket_bisect ascending (bracket_whole draw _) (Nat.le_refl _), rfl⟩

/-- A sum past the draw that has none before it is the one that is selected. -/
theorem select_eq {weights : List α} {i : Nat}
    (ascending : Ascending draw (Scalar.runningSums weights).toArray) (inside : i < weights.length)
    (reached : past draw (Scalar.runningSums weights).toArray i = true)
    (before : ∀ j, j < i → past draw (Scalar.runningSums weights).toArray j = false) :
    select weights draw = i := by
  obtain ⟨found, bracket, selected⟩ := exists_select ascending
  have size : (Scalar.runningSums weights).toArray.size = weights.length := by simp
  -- The closed bracket has every sum before it at most at the draw and every later one past it.
  have notLater : found ≤ i := by
    by_contra later
    rw [bracket.before i (Nat.lt_of_not_le later)] at reached
    exact Bool.false_ne_true reached
  have notEarlier : i ≤ found := by
    by_contra earlier
    have first := before found (Nat.lt_of_not_le earlier)
    rw [bracket.beyond found (Nat.le_refl _) (by omega)] at first
    exact Bool.false_ne_true first.symm
  omega

theorem select_lt {weights : List α} (positive : 0 < weights.length) (draw : α) :
    select weights draw < weights.length := by
  unfold select
  dsimp only
  omega

end

/-! ### Exact weights -/

section
variable {weights : List ℝ}

theorem sum_take_le (natural : ∀ x ∈ weights, 0 ≤ x) {i j : Nat}
    (ordered : i ≤ j) :
    (weights.take i).sum ≤ (weights.take j).sum := by
  obtain ⟨k, rfl⟩ := Nat.exists_eq_add_of_le ordered
  rw [List.take_add, List.sum_append]
  apply le_add_of_nonneg_right
  apply List.sum_nonneg
  intro x member
  exact natural x (List.mem_of_mem_drop (List.mem_of_mem_take member))

/-- A draw below the total lies in the interval of some weight. -/
theorem exists_interval {draw : ℝ} (least : 0 ≤ draw) (most : draw < weights.sum) :
    ∃ i < weights.length, (weights.take i).sum ≤ draw ∧ draw < (weights.take (i + 1)).sum := by
  have reached : ∃ n, draw < (weights.take n).sum := ⟨weights.length, by rwa [List.take_length]⟩
  have positive : Nat.find reached ≠ 0 := by
    intro zero
    have first := Nat.find_spec reached
    rw [zero, List.take_zero, List.sum_nil] at first
    exact absurd least (not_le.mpr first)
  obtain ⟨i, found⟩ := Nat.exists_eq_succ_of_ne_zero positive
  have first := Nat.find_spec reached
  rw [found] at first
  have before : (weights.take i).sum ≤ draw :=
    not_lt.mp (Nat.find_min reached (found ▸ Nat.lt_succ_self i))
  refine ⟨i, ?_, before, first⟩
  by_contra outside
  rw [List.take_of_length_le (Nat.le_of_not_lt outside)] at before
  exact absurd most (not_lt.mpr before)

variable [Exponential]

theorem past_finite (draw : ℝ) {i : Nat} (inside : i < weights.length) :
    past (.finite draw) (Scalar.runningSums (weights.map Exact.finite)).toArray i =
      decide (draw < (weights.take (i + 1)).sum) := by
  have entry : (Scalar.runningSums (weights.map Exact.finite)).toArray.getD i 0 =
      .finite (weights.take (i + 1)).sum := by
    rw [Array.getD_eq_getD_getElem?, List.getElem?_toArray, Exact.getElem?_runningSums _ inside]
    rfl
  rw [past, entry, isPast, Exact.isNaN_finite, Bool.false_and, Bool.or_false]
  exact decide_eq_decide.mpr (Exact.finite_lt _ _)

variable (natural : ∀ x ∈ weights, 0 ≤ x)
include natural

theorem ascending_finite (draw : ℝ) :
    Ascending (.finite draw) (Scalar.runningSums (weights.map Exact.finite)).toArray := by
  intro i j ordered inside reached
  have size : j < weights.length := by simpa using inside
  rw [past_finite draw (Nat.lt_of_le_of_lt ordered size), decide_eq_true_iff] at reached
  rw [past_finite draw size, decide_eq_true_iff]
  exact lt_of_lt_of_le reached (sum_take_le natural (Nat.succ_le_succ ordered))

theorem select_of_interval {draw : ℝ} {i : Nat} (inside : i < weights.length)
    (least : (weights.take i).sum ≤ draw) (most : draw < (weights.take (i + 1)).sum) :
    select (weights.map Exact.finite) (.finite draw) = i := by
  apply select_eq (ascending_finite natural draw) (by rwa [List.length_map])
  · rw [past_finite draw inside, decide_eq_true_iff]
    exact most
  · intro j earlier
    rw [past_finite draw (Nat.lt_trans earlier inside), decide_eq_false_iff_not, not_lt]
    exact le_trans (sum_take_le natural earlier) least

/-- The selected weight is the one whose interval of running sums holds the draw. -/
theorem select_eq_iff {draw : ℝ} (least : 0 ≤ draw) (most : draw < weights.sum) {i : Nat}
    (inside : i < weights.length) :
    select (weights.map Exact.finite) (.finite draw) = i ↔
      (weights.take i).sum ≤ draw ∧ draw < (weights.take (i + 1)).sum := by
  constructor
  · rintro rfl
    obtain ⟨j, insideJ, leastJ, mostJ⟩ := exists_interval least most
    rw [select_of_interval natural insideJ leastJ mostJ]
    exact ⟨leastJ, mostJ⟩
  · rintro ⟨leastI, mostI⟩
    exact select_of_interval natural inside leastI mostI

end

end SeededChoice.Selection
