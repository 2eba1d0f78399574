import Mathlib.Algebra.Order.Floor.Semiring
import SeededChoice.Proofs.Sampler.Shares
import SeededChoice.Proofs.Stream.Equidistribution
import SeededChoice.Proofs.Stream.Run

/-!
# Sampling frequencies

The draws that select an entry fill an interval as long as its share. Each draw comes from equally
many integer seeds, so the seeds that select an entry are as many as its share of all seeds, up to
fewer than the seeds of one draw.
-/

namespace SeededChoice

/-- The whole numbers in an interval are as many as its length says, up to less than one. -/
theorem abs_card_Ico_ceil {low high : ℝ} (natural : 0 ≤ low) (ordered : low ≤ high) :
    |((Finset.Ico ⌈low⌉₊ ⌈high⌉₊).card : ℝ) - (high - low)| < 1 := by
  have lowBefore := Nat.le_ceil low
  have lowAfter := Nat.ceil_lt_add_one natural
  have highBefore := Nat.le_ceil high
  have highAfter := Nat.ceil_lt_add_one (natural.trans ordered)
  rw [Nat.card_Ico, Nat.cast_sub (Nat.ceil_mono ordered), abs_lt]
  constructor
  · linarith
  · linarith

theorem mem_Ico_ceil (low high : ℝ) (draw : Nat) :
    draw ∈ Finset.Ico ⌈2 ^ 23 * low⌉₊ ⌈2 ^ 23 * high⌉₊ ↔
      low ≤ draw / 2 ^ 23 ∧ (draw : ℝ) / 2 ^ 23 < high := by
  have positive : (0 : ℝ) < 2 ^ 23 := by positivity
  rw [Finset.mem_Ico, Nat.ceil_le, Nat.lt_ceil, le_div_iff₀' positive, div_lt_iff₀' positive]

theorem getElem_shares {weights : List ℝ} {i : Nat} (inside : i < weights.length)
    (listed : i < (shares weights).length) :
    (shares weights)[i] = max weights[i] 0 / (positives weights).sum := by
  simp only [shares, positives, List.getElem_map]

namespace Sampler

section
variable [Exponential] {weights : List ℝ} {i : Nat}

section
variable (distribution : IsDistribution weights) (inside : i < weights.length)
include distribution inside

/-- An entry is selected by the draws in its interval of running sums. -/
theorem drawIndex_eq_iff (w : UInt64) :
    drawIndex w (weights.map Exact.finite) = { status := .success, index := some i } ↔
      Stream.drawAt w 0 ∈
        Finset.Ico ⌈2 ^ 23 * (weights.take i).sum⌉₊ ⌈2 ^ 23 * (weights.take (i + 1)).sum⌉₊ := by
  obtain ⟨least, most⟩ := Stream.unit_interval w 0
  rw [← distribution.total] at most
  rw [mem_Ico_ceil, ← Selection.select_eq_iff distribution.natural least most inside, drawIndex,
    Stream.uniformAt_exact]
  constructor
  · intro same
    exact Option.some.inj (congrArg Sample.index same)
  · intro same
    rw [same]

/-- The words that select an entry are as many as its share of all words, up to fewer than those of
one draw. -/
theorem abs_ncard_drawIndex :
    |({w | drawIndex w (weights.map Exact.finite) =
      { status := .success, index := some i }}.ncard : ℝ) - 2 ^ 64 * weights[i]| < 2 ^ 41 := by
  have share : weights[i] = (weights.take (i + 1)).sum - (weights.take i).sum := by
    rw [List.sum_take_succ _ _ inside, add_sub_cancel_left]
  have ordered : (weights.take i).sum ≤ (weights.take (i + 1)).sum :=
    Selection.sum_take_le distribution.natural (Nat.le_succ i)
  have first : 0 ≤ (weights.take i).sum :=
    Selection.sum_take_le distribution.natural (Nat.zero_le i)
  have last : (weights.take (i + 1)).sum ≤ 1 := by
    have whole := Selection.sum_take_le distribution.natural inside
    rwa [List.take_length, distribution.total] at whole
  have small : ∀ draw ∈ Finset.Ico ⌈2 ^ 23 * (weights.take i).sum⌉₊
      ⌈2 ^ 23 * (weights.take (i + 1)).sum⌉₊, draw < 2 ^ 23 := by
    intro draw member
    have below : (draw : ℝ) < 2 ^ 23 * 1 := (div_lt_iff₀' (by positivity)).mp
      (((mem_Ico_ceil _ _ draw).mp member).2.trans_le last)
    exact_mod_cast below.trans_eq (mul_one _)
  have close := abs_card_Ico_ceil (mul_nonneg (by positivity : (0 : ℝ) ≤ 2 ^ 23) first)
    (mul_le_mul_of_nonneg_left ordered (by positivity : (0 : ℝ) ≤ 2 ^ 23))
  simp only [drawIndex_eq_iff distribution inside]
  rw [Stream.card_drawAt_mem 0 _ small, share]
  -- Draws are counted in parts of `2 ^ 23` and words in parts of `2 ^ 64`, `2 ^ 41` to a draw.
  generalize (Finset.Ico ⌈2 ^ 23 * (weights.take i).sum⌉₊
    ⌈2 ^ 23 * (weights.take (i + 1)).sum⌉₊).card = count at close ⊢
  have scaled : ((count * 2 ^ 41 : Nat) : ℝ) -
      2 ^ 64 * ((weights.take (i + 1)).sum - (weights.take i).sum) =
      2 ^ 41 * (count - (2 ^ 23 * (weights.take (i + 1)).sum - 2 ^ 23 * (weights.take i).sum)) := by
    push_cast
    ring
  rw [scaled, abs_mul, abs_of_pos (by positivity : (0 : ℝ) < 2 ^ 41)]
  exact mul_lt_of_lt_one_right (by positivity) close

end

section
variable {b : Buffer Exact} (flat : b.rows = none)
include flat

theorem step_sampleAfterNormalizing (writable : b.storage.Writable)
    (entries : b.entries = weights.map .finite) (positive : 0 < (positives weights).sum)
    (w : UInt64) :
    ((Operation.sampleAfterNormalizing (.ofWord w)).step b).1 =
      .ok (.sample (drawIndex w ((shares weights).map Exact.finite))) := by
  obtain ⟨changed, planned, -⟩ :=
    afterNormalizing_finite flat entries (Seed.expand_ofWord w) positive
  have fits : ((shares weights).map Exact.finite).length = b.entries.length := by
    rw [entries, List.length_map, List.length_map, length_shares]
  rw [Operation.step, Operation.plan, planned, Operation.answering, Buffer.perform]
  cases changed with
  | false => rfl
  | true =>
    simp only [if_true, Buffer.update_assign flat writable fits]
    rfl

theorem step_sampleWithoutNormalizing (nonempty : weights ≠ [])
    (entries : b.entries = weights.map .finite) (w : UInt64) :
    ((Operation.sampleWithoutNormalizing (.ofWord w)).step b).1 =
      .ok (.sample (drawIndex w ((positives weights).map Exact.finite))) := by
  rw [Operation.step, Operation.plan,
    withoutNormalizing_finite flat entries (Seed.expand_ofWord w) nonempty]
  rfl

end

/-- Over all integer seeds, both samplers select each entry as often as its share says, up to fewer
than `2 ^ 41` of the `2 ^ 64` seeds; and every draw at every position is the double made by exactly
`2 ^ 41` of them. -/
theorem selected_as_often_as_share {b : Buffer Exact} (flat : b.rows = none)
    (writable : b.storage.Writable) (entries : b.entries = weights.map .finite)
    (positive : 0 < (positives weights).sum) (inside : i < weights.length) :
    |(Seed.countIntegers (fun seed => ((Operation.sampleAfterNormalizing seed).step b).1 =
        .ok (.sample { status := .success, index := some i })) : ℝ) -
      2 ^ 64 * (max weights[i] 0 / (positives weights).sum)| < 2 ^ 41 ∧
    (∀ c : Buffer Exact, c.rows = none → c.entries = (shares weights).map .finite →
      |(Seed.countIntegers (fun seed => ((Operation.sampleWithoutNormalizing seed).step c).1 =
          .ok (.sample { status := .success, index := some i })) : ℝ) -
        2 ^ 64 * (max weights[i] 0 / (positives weights).sum)| < 2 ^ 41) ∧
    ∀ n draw : Nat, draw < 2 ^ 23 →
      Seed.countIntegers (fun seed => ∃ x : Float, Stream.uniformOf seed (.integer n) = .ok x ∧
        Double.value? x = some ((draw : ℚ) / 2 ^ 23)) = 2 ^ 41 := by
  have listed : i < (shares weights).length := by rwa [length_shares]
  have distribution := isDistribution_shares positive
  have close := abs_ncard_drawIndex distribution listed
  rw [getElem_shares inside listed] at close
  refine ⟨?_, ?_, ?_⟩
  · simp only [Seed.countIntegers_eq, step_sampleAfterNormalizing flat writable entries positive,
      Except.ok.injEq, Answer.sample.injEq]
    exact close
  · intro c flatC entriesC
    have nonempty : shares weights ≠ [] := List.ne_nil_of_length_pos (Nat.zero_lt_of_lt listed)
    simp only [Seed.countIntegers_eq, step_sampleWithoutNormalizing flatC nonempty entriesC,
      positives_eq_self distribution.natural, Except.ok.injEq, Answer.sample.injEq]
    exact close
  · intro n draw small
    simp only [Seed.countIntegers_eq, Stream.uniformOf_value_iff, Stream.card_drawAt n small]

end

theorem selected_as_often_as_share_of_three :
    0 < (positives [1, -2, 3]).sum ∧
      |(Seed.countIntegers (fun seed =>
          ((Operation.sampleAfterNormalizing seed).step
            (Buffer.ofList [Exact.finite 1, Exact.finite (-2), Exact.finite 3])).1 =
          .ok (.sample { status := .success, index := some 2 })) : ℝ) -
        2 ^ 64 * (max 3 0 / (positives [1, -2, 3]).sum)| < 2 ^ 41 := by
  have positive : 0 < (positives [1, -2, 3]).sum := by norm_num [positives]
  have writable : Storage.Writable (.grid .double) := by decide
  exact ⟨positive, (selected_as_often_as_share (b := Buffer.ofList _) (i := 2) rfl writable rfl
    positive (by decide)).1⟩

end Sampler

end SeededChoice
