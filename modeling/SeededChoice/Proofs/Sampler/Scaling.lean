import SeededChoice.Proofs.Sampler.Replay
import SeededChoice.Proofs.Sampler.Shares
import SeededChoice.Proofs.Stream.Run

/-!
# Weights up to a factor

Weights and their multiples have the same shares, so sampling after normalizing draws the same index
from both and leaves the shares. The index is told by the weights themselves: their running sums
enclose the draw as a part of their total.
-/

namespace SeededChoice

section
variable {weights : List ℝ}

theorem positives_scaled {c : ℝ} (positive : 0 < c) :
    positives (weights.map (c * ·)) = (positives weights).map (c * ·) := by
  simp only [positives, List.map_map, Function.comp_def, mul_max_of_nonneg _ _ positive.le, mul_zero]

theorem sum_positives_scaled {c : ℝ} (positive : 0 < c) :
    (positives (weights.map (c * ·))).sum = c * (positives weights).sum := by
  rw [positives_scaled positive, List.sum_map_mul_left, List.map_id']

/-- The shares do not tell weights from their multiples. -/
theorem shares_scaled {c : ℝ} (positive : 0 < c) :
    shares (weights.map (c * ·)) = shares weights := by
  rw [shares, sum_positives_scaled positive, positives_scaled positive, List.map_map, shares]
  exact List.map_congr_left fun x _ => mul_div_mul_left x _ positive.ne'

theorem sum_take_shares (weights : List ℝ) (i : Nat) :
    ((shares weights).take i).sum = ((positives weights).take i).sum / (positives weights).sum := by
  rw [shares, ← List.map_take, sum_map_div]

theorem Selection.interval_unique (natural : ∀ x ∈ weights, 0 ≤ x) {draw : ℝ} {i j : Nat}
    (leastI : (weights.take i).sum ≤ draw) (mostI : draw < (weights.take (i + 1)).sum)
    (leastJ : (weights.take j).sum ≤ draw) (mostJ : draw < (weights.take (j + 1)).sum) : i = j := by
  rcases Nat.lt_trichotomy i j with less | same | more
  · exact absurd (mostI.trans_le ((sum_take_le natural less).trans leastJ)) (lt_irrefl _)
  · exact same
  · exact absurd (mostJ.trans_le ((sum_take_le natural more).trans leastI)) (lt_irrefl _)

/-- Which share a draw selects is seen on the weights, with the draw as a part of their total. -/
theorem Selection.select_shares [Exponential] (positive : 0 < (positives weights).sum) {draw : ℝ}
    (least : 0 ≤ draw) (most : draw < 1) :
    ∃ i < weights.length, select ((shares weights).map Exact.finite) (.finite draw) = i ∧
      ∀ j, ((positives weights).take j).sum ≤ draw * (positives weights).sum ∧
        draw * (positives weights).sum < ((positives weights).take (j + 1)).sum ↔ j = i := by
  have natural := positives_nonneg weights
  obtain ⟨i, inside, before, after⟩ := exists_interval (mul_nonneg least positive.le)
    (mul_lt_of_lt_one_left positive most)
  rw [length_positives] at inside
  refine ⟨i, inside, ?_, fun j => ⟨?_, ?_⟩⟩
  · apply select_of_interval (isDistribution_shares positive).natural (by rwa [length_shares])
    · rwa [sum_take_shares, div_le_iff₀ positive]
    · rwa [sum_take_shares, lt_div_iff₀ positive]
  · rintro ⟨leastJ, mostJ⟩
    exact interval_unique natural leastJ mostJ before after
  · rintro rfl
    exact ⟨before, after⟩

end

namespace Operation

section
variable [Exponential] {b : Buffer Exact} {weights : List ℝ} {seed : Seed} {start : UInt64}
  (flat : b.rows = none) (entries : b.entries = weights.map .finite)
  (accepted : seed.expand = .ok start)
include flat entries accepted

theorem step_afterNormalizing_shares (writable : b.storage.Writable)
    (keeps : b.storage.KeepsReals) (positive : 0 < (positives weights).sum) :
    (sampleAfterNormalizing seed).step b =
      (.ok (.sample (Sampler.drawIndex start ((shares weights).map Exact.finite))),
        { b with entries := (shares weights).map .finite }) := by
  obtain ⟨answered, left⟩ := Sampler.afterNormalizing_shares flat entries accepted positive
  rw [step_sampleAfterNormalizing,
    Buffer.perform_exact flat writable keeps (Sampler.afterNormalizing_fits seed), answered, left]
  rfl

theorem step_withoutNormalizing_distribution (distribution : IsDistribution weights) :
    (sampleWithoutNormalizing seed).step b =
      (.ok (.sample (Sampler.drawIndex start (weights.map Exact.finite))), b) := by
  rw [step_sampleWithoutNormalizing,
    Sampler.withoutNormalizing_finite flat entries accepted distribution.ne_nil,
    positives_eq_self distribution.natural]

end

/-- Sampling after normalizing weights or any positive multiple of them draws one index and leaves
the shares. From the shares, sampling without normalizing draws that index too. It is the only one
whose running sums enclose the draw as a part of the total. Weights that are a distribution are not
written. -/
theorem scaled_alike [Exponential] {b : Buffer Exact} {weights : List ℝ} {seed : Seed}
    {start : UInt64} (flat : b.rows = none) (writable : b.storage.Writable)
    (keeps : b.storage.KeepsReals) (entries : b.entries = weights.map Exact.finite)
    (accepted : seed.expand = .ok start) (positive : 0 < (positives weights).sum) :
    ∃ (i : Nat) (u : ℝ), i < weights.length ∧
      Stream.uniformOf seed (.integer 0) = .ok (Exact.finite u) ∧
      (sampleAfterNormalizing seed).step b =
        (.ok (.sample { status := .success, index := some i }),
          { b with entries := (shares weights).map Exact.finite }) ∧
      (∀ c : ℝ, 0 < c →
        (sampleAfterNormalizing seed).step
            { b with entries := weights.map fun w => Exact.finite (c * w) } =
          (.ok (.sample { status := .success, index := some i }),
            { b with entries := (shares weights).map Exact.finite })) ∧
      (sampleWithoutNormalizing seed).step { b with entries := (shares weights).map Exact.finite } =
        (.ok (.sample { status := .success, index := some i }),
          { b with entries := (shares weights).map Exact.finite }) ∧
      (∀ j, ((positives weights).take j).sum ≤ u * (positives weights).sum ∧
        u * (positives weights).sum < ((positives weights).take (j + 1)).sum ↔ j = i) ∧
      ((∀ w ∈ weights, 0 ≤ w) → (positives weights).sum = 1 →
        (Sampler.afterNormalizing seed b).update = .keep) := by
  obtain ⟨least, most⟩ := Stream.unit_interval start 0
  obtain ⟨i, inside, selected, only⟩ := Selection.select_shares positive least most
  have drawn : Sampler.drawIndex start ((shares weights).map Exact.finite) =
      { status := .success, index := some i } := by
    rw [Sampler.drawIndex, Stream.uniformAt_exact, selected]
  refine ⟨i, _, inside, ?_, ?_, fun c above => ?_, ?_, only, fun natural total => ?_⟩
  · rw [← Stream.uniformAt_exact]
    exact Stream.uniformOf_natural accepted 0
  · rw [step_afterNormalizing_shares flat entries accepted writable keeps positive, drawn]
  · have multiples : weights.map (fun w => Exact.finite (c * w)) =
        (weights.map (c * ·)).map .finite := List.map_map.symm
    have total : 0 < (positives (weights.map (c * ·))).sum := by
      rw [sum_positives_scaled above]
      exact mul_pos above positive
    have stepped := step_afterNormalizing_shares
      (b := { b with entries := weights.map fun w => Exact.finite (c * w) }) flat multiples accepted
      writable keeps total
    rwa [shares_scaled above, drawn] at stepped
  · have stepped := step_withoutNormalizing_distribution
      (b := { b with entries := (shares weights).map Exact.finite }) flat rfl accepted
      (isDistribution_shares positive)
    rwa [drawn] at stepped
  · obtain ⟨changed, planned, unchanged⟩ :=
      Sampler.afterNormalizing_finite flat entries accepted positive
    rw [positives_eq_self natural] at total
    rw [planned, unchanged.mpr ⟨natural, total⟩]
    rfl

theorem scaled_alike_of_three :
    0 < (positives [-1, 3, 1]).sum ∧ ∃ i,
      ((sampleAfterNormalizing (.integer 3)).step (Buffer.ofList ([-1, 3, 1].map Exact.finite))) =
        (.ok (.sample { status := .success, index := some i }),
          Buffer.ofList ([0, 3 / 4, 1 / 4].map Exact.finite)) ∧
      ((sampleAfterNormalizing (.integer 3)).step (Buffer.ofList ([-8, 24, 8].map Exact.finite))) =
        (.ok (.sample { status := .success, index := some i }),
          Buffer.ofList ([0, 3 / 4, 1 / 4].map Exact.finite)) ∧
      ((sampleWithoutNormalizing (.integer 3)).step
          (Buffer.ofList ([0, 3 / 4, 1 / 4].map Exact.finite))) =
        (.ok (.sample { status := .success, index := some i }),
          Buffer.ofList ([0, 3 / 4, 1 / 4].map Exact.finite)) := by
  have positive : 0 < (positives [-1, 3, 1]).sum := by norm_num [positives]
  have parts : shares [-1, 3, 1] = [0, 3 / 4, 1 / 4] := by norm_num [shares, positives]
  have multiples : [-1, 3, 1].map (fun w => Exact.finite (8 * w)) =
      [-8, 24, 8].map Exact.finite := by norm_num
  have accepted : Seed.expand (.integer 3) = .ok 3 := rfl
  obtain ⟨i, u, -, -, once, times, again, -, -⟩ := scaled_alike
    (b := Buffer.ofList ([-1, 3, 1].map Exact.finite)) rfl (by decide) (by decide) rfl accepted
    positive
  have scaled := times 8 (by norm_num)
  rw [multiples, parts] at scaled
  rw [parts] at once again
  exact ⟨positive, i, once, scaled, again⟩

end Operation

end SeededChoice
