import SeededChoice.Proofs.Sampler.Agreement
import SeededChoice.Proofs.Sampler.Exclusion

/-!
# Numbers from a range

In exact arithmetic a number that is drawn from a range lies in the bucket that was drawn for it,
short of the end, so that it is never moved. The weights of the buckets are a distribution.
-/

namespace SeededChoice

section
variable {weights : List ℝ}

theorem positives_eq_zeros (absent : ∀ w ∈ weights, w ≤ 0) :
    positives weights = weights.map fun _ => 0 :=
  List.map_congr_left fun w listed => max_eq_right (absent w listed)

theorem isDistribution_even (nonempty : weights ≠ []) :
    IsDistribution (weights.map fun _ => 1 / (weights.length : ℝ)) := by
  rw [List.map_const']
  exact isDistribution_replicate (List.length_pos_iff.mpr nonempty).ne'

end

namespace Sampler

/-- A number at an offset inside bucket `i` of `n` in the range from `l` to `h`. -/
structure Placed [Exponential] (l h : ℝ) (n i : Nat) (offset value : ℝ) : Prop where
  inside : i < n
  interpolated : value = l + (i + offset) * ((h - l) / n)
  reached : l + i * ((h - l) / n) ≤ value
  short : value < l + (i + 1) * ((h - l) / n)
  least : l ≤ value
  most : value < h
  /-- The number is short of the end before it is compared with it. -/
  unmoved : ¬ Exact.finite h ≤ Exact.finite l + (Scalar.ofNat i + Exact.finite offset) *
    ((Exact.finite h - Exact.finite l) / Scalar.ofNat n)

section
variable [Exponential] {l h offset : ℝ} {n i : Nat} (less : l < h) (inside : i < n)
  (least : 0 ≤ offset) (most : offset < 1)
include less inside least most

theorem exists_placed :
    ∃ value : ℝ, Placed l h n i offset value ∧
      place (Exact.finite l) (.finite h) n i (.finite offset) = .finite value := by
  have buckets : (0 : ℝ) < n := by exact_mod_cast Nat.zero_lt_of_lt inside
  have width : 0 < (h - l) / n := div_pos (sub_pos.mpr less) buckets
  have whole : l + n * ((h - l) / n) = h := by
    rw [mul_div_cancel₀ _ buckets.ne', add_sub_cancel]
  have next : (i : ℝ) + 1 ≤ n := by exact_mod_cast inside
  have natural : (0 : ℝ) ≤ i := Nat.cast_nonneg i
  have reached : l + i * ((h - l) / n) ≤ l + (i + offset) * ((h - l) / n) := by
    gcongr
    exact le_add_of_nonneg_right least
  have short : l + (i + offset) * ((h - l) / n) < l + (i + 1) * ((h - l) / n) := by
    gcongr
  have edge : l + (i + 1) * ((h - l) / n) ≤ h := by
    refine le_trans ?_ whole.le
    gcongr
  have bounded := short.trans_le edge
  have expanded : Exact.finite l + (Scalar.ofNat i + Exact.finite offset) *
      ((Exact.finite h - Exact.finite l) / Scalar.ofNat n) =
        .finite (l + (i + offset) * ((h - l) / n)) := by
    rw [Exact.ofNat_eq, Exact.ofNat_eq, Exact.finite_sub, Exact.finite_div _ buckets.ne',
      Exact.finite_add, Exact.finite_mul, Exact.finite_add]
  have unmoved : ¬ Exact.finite h ≤ .finite (l + (i + offset) * ((h - l) / n)) := by
    rw [Exact.finite_le]
    exact not_le.mpr bounded
  refine ⟨_, ⟨inside, rfl, reached, short, ?_, bounded, by rwa [expanded]⟩, ?_⟩
  · exact (le_add_of_nonneg_right (mul_nonneg natural width.le)).trans reached
  · rw [place]
    simp only [expanded, if_neg unmoved]

end

section
variable [Exponential] {b : Buffer Exact} {weights : List ℝ} (flat : b.rows = none)
  (entries : b.entries = weights.map Exact.finite)
include flat entries

/-- The weights of the buckets: the shares, or the same for all where no weight is positive. -/
theorem bucketWeights_finite (nonempty : weights ≠ []) :
    ∃ xs : List ℝ, bucketWeights? b = some (xs.map Exact.finite) ∧ IsDistribution xs ∧
      xs.length = weights.length ∧ ((∃ w ∈ weights, 0 < w) → xs = shares weights) ∧
      ((∀ w ∈ weights, w ≤ 0) → xs = weights.map fun _ => 1 / (weights.length : ℝ)) := by
  by_cases present : ∃ w ∈ weights, 0 < w
  · have positive := positives_pos present
    refine ⟨shares weights, ?_, isDistribution_shares positive, length_shares weights,
      fun _ => rfl, fun absent => ?_⟩
    · simp only [bucketWeights?, entries, map_positivePart, Exact.sum_finite,
        Exact.isFinite_finite, Exact.zero_eq, Exact.finite_beq, decide_eq_false positive.ne',
        Normalize.scaled_finite positive, Bool.not_true, Bool.false_eq_true, if_false]
      rfl
    · obtain ⟨w, listed, above⟩ := present
      exact absurd (absent w listed) (not_le.mpr above)
  · have absent : ∀ w ∈ weights, w ≤ 0 := by
      intro w listed
      exact not_lt.mp fun above => present ⟨w, listed, above⟩
    have massless : (positives weights).sum = 0 := by
      rw [positives_eq_zeros absent]
      simp
    have buckets : (weights.length : ℝ) ≠ 0 :=
      Nat.cast_ne_zero.mpr (List.length_pos_iff.mpr nonempty).ne'
    have size : b.length = weights.length := by
      rw [Buffer.length_flat flat, entries, List.length_map]
    refine ⟨_, ?_, isDistribution_even nonempty, List.length_map _,
      fun positive => absurd positive present, fun _ => rfl⟩
    simp only [bucketWeights?, entries, map_positivePart, Exact.sum_finite, massless,
      Exact.isFinite_finite, Exact.zero_eq, Exact.finite_beq, size, Exact.ofNat_eq, Exact.one_eq,
      Exact.finite_div _ buckets, Bool.not_true, Bool.false_eq_true, if_false, decide_true, if_true]
    simp only [List.map_const', List.length_map, length_positives, List.map_replicate]

end

end Sampler

namespace Operation

/-- Sampling a range succeeds. Draw zero selects a bucket by the weights that are left in the buffer,
a positive one among them, and draw one is the offset inside the bucket. -/
theorem sampled_in_bucket [Exponential] {b : Buffer Exact} {weights : List ℝ} {seed : Seed}
    {start : UInt64} {low high : Argument Exact} {l h : ℝ} (flat : b.rows = none)
    (writable : b.storage.Writable) (keeps : b.storage.KeepsReals)
    (entries : b.entries = weights.map .finite) (nonempty : weights ≠ [])
    (accepted : seed.expand = .ok start)
    (lower : low.toReal = .ok (.finite l)) (upper : high.toReal = .ok (.finite h)) (less : l < h) :
    ∃ (i : Nat) (first second value x : ℝ) (xs : List ℝ),
      Stream.uniformOf seed (.integer 0) = .ok (Exact.finite first) ∧
      Stream.uniformOf seed (.integer 1) = .ok (Exact.finite second) ∧
      (sampleInRange seed low high).step b =
        (.ok (.rangeSample
          { status := .success, value := some (.finite value), bucket := some i }),
          { b with entries := xs.map Exact.finite }) ∧
      Sampler.Placed l h weights.length i second value ∧
      ((∃ w ∈ weights, 0 < w) → xs = shares weights) ∧
      ((∀ w ∈ weights, w ≤ 0) → xs = weights.map fun _ => 1 / (weights.length : ℝ)) ∧
      (xs.take i).sum ≤ first ∧ first < (xs.take (i + 1)).sum ∧ xs[i]? = some x ∧ 0 < x := by
  obtain ⟨xs, found, distribution, length, positive, even⟩ :=
    Sampler.bucketWeights_finite flat entries nonempty
  obtain ⟨leastFirst, mostFirst⟩ := Stream.unit_interval start 0
  obtain ⟨leastSecond, mostSecond⟩ := Stream.unit_interval start 1
  obtain ⟨x, listed, above⟩ := Selection.select_pos distribution leastFirst mostFirst
  rw [← distribution.total] at mostFirst
  obtain ⟨i, inside, before, after⟩ := Selection.exists_interval leastFirst mostFirst
  have selected := Selection.select_of_interval distribution.natural inside before after
  obtain ⟨value, placed, same⟩ :=
    Sampler.exists_placed less (length ▸ inside) leastSecond mostSecond
  have size : b.length = weights.length := by
    rw [Buffer.length_flat flat, entries, List.length_map]
  have started := Sampler.start?_finite flat entries accepted nonempty
  have range : Sampler.isRange (Exact.finite l) (.finite h) = true :=
    Sampler.isRange_of_lt rfl rfl ((Exact.finite_lt l h).mpr less)
  refine ⟨i, _, _, value, x, xs, ?_, ?_, ?_, placed, positive, even, before, after,
    selected ▸ listed, above⟩
  · rw [← Stream.uniformAt_exact]
    exact Stream.uniformOf_natural accepted 0
  · rw [← Stream.uniformAt_exact]
    exact Stream.uniformOf_natural accepted 1
  · rw [step_drawn seed flat writable lower upper range started found, Stream.uniformAt_exact,
      Stream.uniformAt_exact, selected, size, same,
      Buffer.map_hold (Buffer.hold_exact keeps)]

theorem sampled_in_bucket_of_three :
    (2 : ℝ) < 5 ∧ ∃ i value,
      (sampleInRange (.integer 3) (.real (.finite 2)) (.real (.finite 5))).step
          (Buffer.ofList ([-1, 3, 1].map Exact.finite)) =
        (.ok (.rangeSample
          { status := .success, value := some (.finite value), bucket := some i }),
          Buffer.ofList ([0, 3 / 4, 1 / 4].map Exact.finite)) ∧
      i ≠ 0 ∧ 3 ≤ value ∧ value < 5 := by
  have less : (2 : ℝ) < 5 := by norm_num
  have present : ∃ w ∈ ([-1, 3, 1] : List ℝ), 0 < w := ⟨3, by simp, by norm_num⟩
  have parts : shares [-1, 3, 1] = [0, 3 / 4, 1 / 4] := by norm_num [shares, positives]
  have accepted : Seed.expand (.integer 3) = .ok 3 := rfl
  have read (x : ℝ) : (Argument.real (.finite x) : Argument Exact).toReal = .ok (.finite x) := rfl
  obtain ⟨i, _, _, value, x, xs, -, -, stepped, placed, written, -, -, -, listed, above⟩ :=
    sampled_in_bucket (b := Buffer.ofList ([-1, 3, 1].map Exact.finite)) rfl (by decide)
      (by decide) rfl (by simp) accepted (read 2) (read 5) less
  obtain rfl := (written present).trans parts
  have later : i ≠ 0 := by
    rintro rfl
    obtain rfl : 0 = x := Option.some.inj listed
    exact lt_irrefl _ above
  refine ⟨less, i, value, stepped, later, ?_, placed.most⟩
  have reached := placed.reached
  have width : ((5 : ℝ) - 2) / ([-1, 3, 1] : List ℝ).length = 1 := by norm_num
  have one : (1 : ℝ) ≤ i := by exact_mod_cast Nat.one_le_iff_ne_zero.mpr later
  rw [width, mul_one] at reached
  linarith

end Operation

end SeededChoice
