import SeededChoice.Proofs.Distribution.Run
import SeededChoice.Proofs.Exact.Order
import SeededChoice.Proofs.Floor.Join
import SeededChoice.Proofs.Sampler.Replay

/-!
# Excluded entries

Sampling leaves a distribution and selects one of its positive entries. Enforcing a floor moves no
mass to an entry that is not eligible, so what is excluded from the start is never drawn.
-/

namespace SeededChoice

/-! ### Drawing from distributions -/

theorem Selection.select_pos [Exponential] {xs : List ℝ} (distribution : IsDistribution xs) {draw : ℝ}
    (least : 0 ≤ draw) (most : draw < 1) :
    ∃ x, xs[select (xs.map Exact.finite) (.finite draw)]? = some x ∧ 0 < x := by
  rw [← distribution.total] at most
  obtain ⟨i, inside, before, after⟩ := exists_interval least most
  rw [select_of_interval distribution.natural inside before after]
  refine ⟨xs[i], List.getElem?_eq_getElem inside, ?_⟩
  rw [List.sum_take_succ _ _ inside] at after
  linarith

theorem isDistribution_set_one {weights : List ℝ} (nonempty : weights ≠ [])
    (natural : ∀ w ∈ weights, 0 ≤ w) (massless : weights.sum = 0) :
    IsDistribution (weights.set 0 1) := by
  cases weights with
  | nil => exact absurd rfl nonempty
  | cons w rest =>
    obtain ⟨first, others⟩ := List.forall_mem_cons.mp natural
    have remaining := List.sum_nonneg others
    rw [List.sum_cons] at massless
    constructor
    · exact List.forall_mem_cons.mpr ⟨zero_le_one, others⟩
    · rw [List.set_cons_zero, List.sum_cons]
      linarith

theorem Sampler.drawIndex_pos [Exponential] {xs : List ℝ} (distribution : IsDistribution xs)
    (start : UInt64) :
    ∃ i x, drawIndex start (xs.map Exact.finite) = { status := .success, index := some i } ∧
      xs[i]? = some x ∧ 0 < x := by
  obtain ⟨least, most⟩ := Stream.unit_interval start 0
  obtain ⟨x, found, positive⟩ := Selection.select_pos distribution least most
  refine ⟨_, x, ?_, found, positive⟩
  rw [drawIndex, Stream.uniformAt_exact]

namespace Sampler

variable [Exponential] {b : Buffer Exact} {weights : List ℝ} {seed : Seed} {start : UInt64}
  (flat : b.rows = none) (entries : b.entries = weights.map Exact.finite)
include flat entries

/-- Sampling after normalizing draws from a distribution, and leaves it. -/
theorem afterNormalizing_distribution (accepted : seed.expand = .ok start)
    (nonempty : weights ≠ []) :
    ∃ xs : List ℝ, IsDistribution xs ∧ xs.length = weights.length ∧
      (afterNormalizing seed b).answer = drawIndex start (xs.map Exact.finite) ∧
      (afterNormalizing seed b).update.applied b.entries = xs.map Exact.finite := by
  have natural := positives_nonneg weights
  rcases (List.sum_nonneg natural).eq_or_lt with massless | positive
  · have finite := (Exact.all_isFinite_iff _).mpr ⟨weights, entries⟩
    have numbers := weights_positivePart finite
    rw [entries, map_positivePart] at numbers
    have first := Selection.select_set_one numbers (Stream.uniformAt_lt_one start 0)
    have remain : positives weights ≠ [] := fun empty => nonempty (List.map_eq_nil_iff.mp empty)
    have zero : (Exact.finite (positives weights).sum == 0) = true := by
      rw [Exact.zero_eq, Exact.finite_beq, decide_eq_true massless.symm]
    have planned : afterNormalizing seed b =
        { answer := { status := .success, index := some 0 }
          update := .assign (((positives weights).map Exact.finite).set 0 1) } := by
      rw [afterNormalizing, start?_finite flat entries accepted nonempty]
      simp only [entries, map_positivePart, Exact.sum_finite, Exact.isFinite_finite, zero,
        Bool.not_true, Bool.false_eq_true, if_false, if_true]
    have written : ((positives weights).set 0 1).map Exact.finite =
        ((positives weights).map Exact.finite).set 0 1 := List.map_set
    have drawn := isDistribution_set_one remain natural massless.symm
    refine ⟨(positives weights).set 0 1, drawn, ?_, ?_, ?_⟩
    · rw [List.length_set, length_positives]
    · rw [planned, drawIndex, written, first]
    · rw [planned, written]
      rfl
  · exact ⟨shares weights, isDistribution_shares positive, length_shares weights,
      afterNormalizing_shares flat entries accepted positive⟩

/-- The entry that is selected is positive in what sampling leaves. -/
theorem afterNormalizing_pos (accepted : seed.expand = .ok start) (nonempty : weights ≠ []) :
    ∃ i x, (afterNormalizing seed b).answer = { status := .success, index := some i } ∧
      ((afterNormalizing seed b).update.applied b.entries)[i]? = some (Exact.finite x) ∧ 0 < x := by
  obtain ⟨xs, distribution, -, answered, left⟩ :=
    afterNormalizing_distribution flat entries accepted nonempty
  obtain ⟨i, x, drawn, found, positive⟩ := drawIndex_pos distribution start
  refine ⟨i, x, answered.trans drawn, ?_, positive⟩
  rw [left, List.getElem?_map, found]
  rfl

/-- With a positive weight, the weight that is selected is one. -/
theorem afterNormalizing_weight (accepted : seed.expand = .ok start)
    (positive : 0 < (positives weights).sum) :
    ∃ i w, (afterNormalizing seed b).answer = { status := .success, index := some i } ∧
      weights[i]? = some w ∧ 0 < w := by
  obtain ⟨answered, -⟩ := afterNormalizing_shares flat entries accepted positive
  obtain ⟨i, x, drawn, found, share⟩ := drawIndex_pos (isDistribution_shares positive) start
  rw [shares, positives, List.map_map, List.getElem?_map] at found
  obtain ⟨w, listed, rfl⟩ := Option.map_eq_some_iff.mp found
  refine ⟨i, w, answered.trans drawn, listed, ?_⟩
  by_contra excluded
  have zero : max w 0 = 0 := max_eq_right (not_lt.mp excluded)
  simp only [Function.comp_apply, zero, zero_div, lt_irrefl] at share

end Sampler

/-! ### Floors -/

namespace Floor

variable {zeros : Bool} {minimum : ℝ} {xs ys : List ℝ}

/-- A floor acts on the entries one by one, and only on eligible ones. -/
theorem Enforced.exists_map (enforced : Enforced zeros minimum xs ys) :
    ∃ f : ℝ → ℝ, ys = xs.map f ∧ ∀ x, ¬ eligible zeros x = true → f x = x := by
  unfold Enforced at enforced
  split at enforced
  · exact ⟨id, by rw [enforced, List.map_id], fun x _ => rfl⟩
  split at enforced
  · exact ⟨_, enforced, fun x excluded => if_neg excluded⟩
  · obtain ⟨factor, -, -, lifted, -⟩ := enforced
    exact ⟨_, lifted, fun x excluded => if_neg excluded⟩

theorem Enforced.eligible_of_pos (enforced : Enforced zeros minimum xs ys) {i : Nat} {y : ℝ}
    (found : ys[i]? = some y) (positive : 0 < y) :
    ∃ x, xs[i]? = some x ∧ eligible zeros x = true := by
  obtain ⟨f, rfl, stays⟩ := enforced.exists_map
  rw [List.getElem?_map] at found
  obtain ⟨x, listed, rfl⟩ := Option.map_eq_some_iff.mp found
  refine ⟨x, listed, ?_⟩
  by_contra excluded
  rw [stays x excluded] at positive
  exact excluded (Floor.eligible_of_pos positive)

theorem Enforced.positives_pos (enforced : Enforced zeros minimum xs ys)
    (positive : 0 < (positives xs).sum) : 0 < (positives ys).sum := by
  rw [← sum_eligibles_positives zeros] at positive ⊢
  unfold Enforced at enforced
  split at enforced
  · rwa [enforced]
  rename_i work
  split at enforced
  · rw [enforced, sum_eligibles_evened (not_or.mp work).1]
    exact zero_lt_one
  · rwa [enforced.sum_eq]

end Floor

theorem positives_pos {weights : List ℝ} (present : ∃ w ∈ weights, 0 < w) :
    0 < (positives weights).sum := by
  obtain ⟨w, listed, positive⟩ := present
  have member : max w 0 ∈ positives weights := List.mem_map_of_mem listed
  have less := List.single_le_sum (positives_nonneg weights) _ member
  exact positive.trans_le ((le_max_left w 0).trans less)

/-! ### Steps -/

section
variable [Exponential] {b : Buffer Exact} {weights : List ℝ} {seed : Seed} (flat : b.rows = none)
  (keeps : b.storage.KeepsReals) (entries : b.entries = weights.map Exact.finite)
include flat keeps entries

theorem Sampler.perform_pos {i : Nat}
    (sampled : (b.perform (.ok (afterNormalizing seed b))).1 =
      .ok { status := .success, index := some i }) :
    ∃ x : ℝ, (b.perform (.ok (afterNormalizing seed b))).2.entries[i]? = some (.finite x) ∧
      0 < x := by
  obtain ⟨answered, -, left⟩ := Buffer.perform_held (Buffer.hold_exact keeps)
    (afterNormalizing_fits seed) (afterNormalizing_unfilled seed b) sampled
  obtain ⟨start, started, -⟩ := afterNormalizing_success answered
  obtain ⟨size, -, accepted⟩ := start?_some started
  have nonempty : weights ≠ [] := by
    rintro rfl
    rw [Buffer.length_flat flat, entries] at size
    exact size rfl
  obtain ⟨j, x, drawn, found, positive⟩ := afterNormalizing_pos flat entries accepted nonempty
  obtain rfl : i = j := Option.some.inj (congrArg Sample.index (answered.symm.trans drawn))
  exact ⟨x, left ▸ found, positive⟩

theorem Operation.step_weight (writable : b.storage.Writable) {start : UInt64}
    (accepted : seed.expand = .ok start) (positive : 0 < (positives weights).sum) :
    ∃ i w, ((sampleAfterNormalizing seed).step b).1 =
        .ok (.sample { status := .success, index := some i }) ∧ weights[i]? = some w ∧ 0 < w := by
  obtain ⟨i, w, drawn, listed, above⟩ :=
    Sampler.afterNormalizing_weight flat entries accepted positive
  refine ⟨i, w, ?_, listed, above⟩
  rw [step_sampleAfterNormalizing,
    Buffer.perform_exact flat writable keeps (Sampler.afterNormalizing_fits seed), drawn]
  rfl

end

/-- After a floor, sampling succeeds and selects an entry that was positive, or zero if zeros were
raised; what was excluded is never selected. And whatever sampling after normalizing leaves is
positive where it has selected. -/
theorem Operation.excluded_never_drawn [Exponential] {b : Buffer Exact} {weights : List ℝ}
    (flat : b.rows = none) (keeps : b.storage.KeepsReals)
    (entries : b.entries = weights.map Exact.finite) :
    (b.storage.Writable → (∃ w ∈ weights, 0 < w) → ∀ (zeros : Bool) (minimum : ℝ), 0 ≤ minimum →
      minimum ≤ 1 → ∀ (seed : Seed) (start : UInt64), seed.expand = .ok start →
      ((floor (.real (.finite minimum)) zeros).step b).1 = .ok (.status .success) ∧
      ∃ i w, ((sampleAfterNormalizing seed).step
          ((floor (.real (.finite minimum)) zeros).step b).2).1 =
            .ok (.sample { status := .success, index := some i }) ∧
        weights[i]? = some w ∧ 0 ≤ w ∧ (zeros = false → 0 < w)) ∧
    ∀ (seed : Seed) (i : Nat), ((sampleAfterNormalizing seed).step b).1 =
        .ok (.sample { status := .success, index := some i }) →
      ∃ x : ℝ, ((sampleAfterNormalizing seed).step b).2.entries[i]? = some (.finite x) ∧ 0 < x := by
  constructor
  · intro writable present zeros minimum least most seed start accepted
    have nonempty : weights ≠ [] := by
      rintro rfl
      simp at present
    obtain ⟨ys, performed, enforced⟩ :=
      Floor.perform_enforce flat writable keeps entries nonempty zeros least most
    have stepped : (floor (.real (.finite minimum)) zeros).step b =
        (.ok (.status .success), { b with entries := ys.map .finite }) := by
      rw [step, plan, perform_answering, performed]
      rfl
    rw [stepped]
    refine ⟨rfl, ?_⟩
    have positive := enforced.positives_pos (positives_pos present)
    obtain ⟨i, y, sampled, found, above⟩ := step_weight
      (b := { b with entries := ys.map .finite }) flat keeps rfl writable accepted positive
    obtain ⟨w, listed, eligible⟩ := enforced.eligible_of_pos found above
    refine ⟨i, w, sampled, listed, Floor.nonneg_of_eligible eligible, ?_⟩
    rintro rfl
    simpa [Floor.eligible] using eligible
  · intro seed i sampled
    rw [step_sampleAfterNormalizing] at sampled ⊢
    obtain ⟨s, drawn, same⟩ := map_ok sampled
    obtain rfl := Answer.sample.inj same
    exact Sampler.perform_pos flat keeps entries drawn

theorem Operation.excluded_never_drawn_of_three :
    ((sampleAfterNormalizing (.integer 3)).step
        ((floor (.real (.finite (1 / 2))) false).step
          (Buffer.ofList [Exact.finite 0, Exact.finite 2, Exact.finite (-1)])).2).1 =
      .ok (.sample { status := .success, index := some 1 }) ∧
    ∃ i x, ((sampleAfterNormalizing (.integer 3)).step
        (Buffer.ofList [Exact.finite 0, Exact.finite 2, Exact.finite (-1)])).1 =
          .ok (.sample { status := .success, index := some i }) ∧
      ((sampleAfterNormalizing (.integer 3)).step
        (Buffer.ofList [Exact.finite 0, Exact.finite 2, Exact.finite (-1)])).2.entries[i]? =
          some (Exact.finite x) ∧ 0 < x := by
  have entries : (Buffer.ofList [Exact.finite 0, Exact.finite 2, Exact.finite (-1)]).entries =
      [0, 2, -1].map Exact.finite := rfl
  have present : ∃ w ∈ ([0, 2, -1] : List ℝ), 0 < w := ⟨2, by simp, by norm_num⟩
  have accepted : Seed.expand (.integer 3) = .ok 3 := rfl
  obtain ⟨safe, leaves⟩ := excluded_never_drawn rfl (by decide) entries
  constructor
  · obtain ⟨-, i, w, sampled, listed, -, only⟩ :=
      safe (by decide) present false (1 / 2) (by norm_num) (by norm_num) (.integer 3) 3 accepted
    have positive := only rfl
    have second : i = 1 := by
      match i, listed with
      | 0, listed => norm_num at listed; linarith
      | 1, _ => rfl
      | 2, listed => norm_num at listed; linarith
    rw [sampled, second]
  · obtain ⟨i, w, sampled, -, -⟩ :=
      step_weight rfl (by decide) entries (by decide) accepted (positives_pos present)
    obtain ⟨x, left, positive⟩ := leaves _ i sampled
    exact ⟨i, x, sampled, left, positive⟩

end SeededChoice
