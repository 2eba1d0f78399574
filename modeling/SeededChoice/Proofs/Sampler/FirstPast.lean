import SeededChoice.Proofs.Double.Rounding
import SeededChoice.Proofs.Exact.Order
import SeededChoice.Proofs.Sampler.Walk

/-!
# The first sum past a draw

The running sums of weights that are not negative are sorted, exact or rounded. So bisection comes
to the first of them that exceeds a draw, and it is the weight at that place that took the sums past
the draw.
-/

namespace SeededChoice.Selection

open Scalar AscendingScalar NeutralScalar

section
variable {α : Type} [Scalar α] [AscendingScalar α] {weights : List α} {draw : α}
  (natural : ∀ w ∈ weights, 0 ≤ w)
include natural

/-- No running sum is undefined, so one that is past a draw exceeds it. -/
theorem past_iff {i : Nat} (inside : i < weights.length) :
    past draw (runningSums weights).toArray i = true ↔ draw < sumUpTo weights i := by
  have number : isNaN (sumUpTo weights i) = false := by
    rw [isNaN, beq_self (zero_le_sumUpTo natural inside)]
    rfl
  rw [past, Array.getD_eq_getD_getElem?, List.getElem?_toArray, getElem?_runningSums inside,
    Option.getD_some, isPast, number, Bool.false_and, Bool.or_false, decide_eq_true_iff]

theorem ascending_runningSums (draw : α) : Ascending draw (runningSums weights).toArray := by
  intro i j ordered inside reached
  have size : j < weights.length := by simpa using inside
  rw [past_iff natural (Nat.lt_of_le_of_lt ordered size)] at reached
  rw [past_iff natural size]
  rcases Nat.eq_or_lt_of_le ordered with rfl | less
  · exact reached
  · exact lt_of_lt_of_le reached (sumUpTo_le natural less size)

theorem select_isLeast (exceeded : ∃ i < weights.length, draw < sumUpTo weights i) :
    IsLeast {i | i < weights.length ∧ draw < sumUpTo weights i} (select weights draw) := by
  obtain ⟨found, bracket, selected⟩ := exists_select (ascending_runningSums natural draw)
  have size : (runningSums weights).toArray.size = weights.length := by simp
  have least : ∀ i < weights.length, draw < sumUpTo weights i → found ≤ i := by
    intro i inside exceeds
    by_contra earlier
    have before := bracket.before i (Nat.lt_of_not_le earlier)
    rw [(past_iff natural inside).mpr exceeds] at before
    cases before
  obtain ⟨i, inside, exceeds⟩ := exceeded
  have first : found < weights.length := Nat.lt_of_le_of_lt (least i inside exceeds) inside
  obtain rfl : select weights draw = found := by omega
  constructor
  · exact ⟨first, (past_iff natural first).mp (bracket.beyond _ (Nat.le_refl _) (by omega))⟩
  · exact fun j later => least j later.1 later.2

theorem select_eq_last (unmatched : ∀ i < weights.length, ¬ draw < sumUpTo weights i) :
    select weights draw = weights.length - 1 := by
  obtain ⟨found, bracket, selected⟩ := exists_select (ascending_runningSums natural draw)
  have size : (runningSums weights).toArray.size = weights.length := by simp
  have beyond : weights.length ≤ found := by
    by_contra within
    have first := Nat.lt_of_not_le within
    have reached := bracket.beyond found (Nat.le_refl _) (by omega)
    exact unmatched found first ((past_iff natural first).mp reached)
  omega

/-- A greater draw selects no earlier weight. -/
theorem select_mono {more : α} (size : 0 < weights.length) (less : draw ≤ more) :
    select weights draw ≤ select weights more := by
  by_cases exceeded : ∃ i < weights.length, more < sumUpTo weights i
  · obtain ⟨inside, exceeds⟩ := (select_isLeast natural exceeded).1
    have both := lt_of_le_of_lt less exceeds
    exact (select_isLeast natural ⟨_, inside, both⟩).2 ⟨inside, both⟩
  · have last := select_eq_last natural fun i inside exceeds => exceeded ⟨i, inside, exceeds⟩
    have first := select_lt size draw
    omega

theorem selected_pos [NeutralScalar α] (least : 0 ≤ draw)
    (exceeded : ∃ i < weights.length, draw < sumUpTo weights i) :
    ∃ w, weights[select weights draw]? = some w ∧ 0 < w := by
  obtain ⟨⟨inside, exceeds⟩, first⟩ := select_isLeast natural exceeded
  generalize select weights draw = i at *
  refine ⟨weights[i], List.getElem?_eq_getElem inside, ?_⟩
  cases i with
  | zero =>
    rw [sumUpTo_zero inside] at exceeds
    exact lt_of_le_of_lt least exceeds
  | succ i =>
    -- A weight that is not positive adds nothing, so the sum before it would exceed the draw too.
    by_contra nothing
    have within := Nat.lt_of_succ_lt inside
    have kept :=
      add_le (zero_le_sumUpTo natural within) (natural _ (List.getElem_mem inside)) nothing
    rw [sumUpTo_succ inside] at exceeds
    exact absurd (first ⟨within, lt_of_lt_of_le exceeds kept⟩) (Nat.not_succ_le_self i)

/-- Under an addition that a number which is not negative never makes less, the running sums of such
weights are sorted, and a draw selects the first weight whose running sum exceeds it, or the last
weight where there is none. A greater draw selects no earlier weight; and, if adding a zero does not
make a sum more, what a draw that is not negative selects is positive where any running sum exceeds
it. -/
theorem selects_first_past (nonempty : weights ≠ []) (draw : α) :
    (runningSums weights).Pairwise (· ≤ ·) ∧
    select weights draw < weights.length ∧
    ((∃ i < weights.length, draw < sumUpTo weights i) →
      IsLeast {i | i < weights.length ∧ draw < sumUpTo weights i} (select weights draw)) ∧
    ((∀ i < weights.length, ¬ draw < sumUpTo weights i) →
      select weights draw = weights.length - 1) ∧
    (∀ more, draw ≤ more → select weights draw ≤ select weights more) ∧
    (∀ [NeutralScalar α], 0 ≤ draw → (∃ i < weights.length, draw < sumUpTo weights i) →
      ∃ w, weights[select weights draw]? = some w ∧ 0 < w) := by
  have size := List.length_pos_of_ne_nil nonempty
  exact ⟨runningSums_sorted natural, select_lt size draw, select_isLeast natural,
    select_eq_last natural, fun more => select_mono natural size, selected_pos natural⟩

end

/-- The second weight repeats a running sum, and the draw is equal to that. -/
def plateau : List Float := [0.5, 0, 0.25, 0.25]

theorem selects_first_past_of_plateau :
    ((∀ w ∈ plateau, 0 ≤ w) ∧
      IsLeast {i | i < 4 ∧ 0.5 < sumUpTo plateau i} (select plateau 0.5) ∧
      select plateau 0.5 ≤ select plateau 0.75 ∧ select plateau 1 = 3 ∧
      ∃ w, plateau[select plateau 0.5]? = some w ∧ 0 < w) ∧
    IsLeast {i | i < 2 ∧ (0 : Exact) < sumUpTo [0, 1] i} (select [0, 1] (0 : Exact)) ∧
    ∃ w, ([0, 1] : List Exact)[select [0, 1] (0 : Exact)]? = some w ∧ 0 < w := by
  constructor
  · have natural : ∀ w ∈ plateau, Zero.zero ≤ w := by decide +kernel
    have exceeded : ∃ i < 4, (0.5 : Float) < sumUpTo plateau i := ⟨2, by decide, by decide +kernel⟩
    have unmatched : ∀ i < 4, ¬ (1 : Float) < sumUpTo plateau i := by decide +kernel
    obtain ⟨-, -, least, -, mono, positive⟩ :=
      selects_first_past natural (List.cons_ne_nil _ _) 0.5
    obtain ⟨-, -, -, last, -, -⟩ := selects_first_past natural (List.cons_ne_nil _ _) 1
    exact ⟨natural, least exceeded, mono 0.75 (by decide +kernel), last unmatched,
      positive (by decide +kernel) exceeded⟩
  · have natural : ∀ w ∈ [(0 : Exact), 1], 0 ≤ w := by
      intro w member
      rcases List.mem_pair.mp member with rfl | rfl
      · exact zero_le_zero
      · exact OrderedScalar.zero_le_one
    have sum : sumUpTo [(0 : Exact), 1] 1 = .finite 1 := by
      show Exact.finite (0 + 1) = .finite 1
      rw [zero_add]
    have exceeded : ∃ i < 2, (0 : Exact) < sumUpTo [0, 1] i := by
      refine ⟨1, by decide, ?_⟩
      rw [sum, Exact.zero_eq, Exact.finite_lt]
      exact zero_lt_one
    obtain ⟨-, -, least, -, -, positive⟩ := selects_first_past natural (List.cons_ne_nil _ _) 0
    exact ⟨least exceeded, positive zero_le_zero exceeded⟩

end SeededChoice.Selection
