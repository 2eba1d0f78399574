import SeededChoice.Operation
import SeededChoice.Proofs.Distribution.Basic
import SeededChoice.Proofs.Sampler.Walk
import SeededChoice.Proofs.Stream.Jump

/-!
# Samplers in exact arithmetic

With a positive weight, both samplers walk over the shares of the weights: what the weights that are
not negative are of their sum.
-/

namespace SeededChoice

/-- The weights, with zero for the negative ones. -/
noncomputable def positives (weights : List ℝ) : List ℝ := weights.map (max · 0)

/-- What each weight that is not negative is of their sum. -/
noncomputable def shares (weights : List ℝ) : List ℝ :=
  (positives weights).map (· / (positives weights).sum)

section
variable (weights : List ℝ)

@[simp] theorem length_positives : (positives weights).length = weights.length := List.length_map _

@[simp] theorem length_shares : (shares weights).length = weights.length := by
  rw [shares, List.length_map, length_positives]

theorem positives_nonneg : ∀ x ∈ positives weights, 0 ≤ x := by
  intro x member
  obtain ⟨w, -, rfl⟩ := List.mem_map.mp member
  exact le_max_right _ _

theorem positives_eq_self {weights : List ℝ} (natural : ∀ w ∈ weights, 0 ≤ w) :
    positives weights = weights := by
  rw [positives, List.map_congr_left fun w member => max_eq_left (natural w member), List.map_id']

variable {weights}

theorem isDistribution_shares (positive : 0 < (positives weights).sum) :
    IsDistribution (shares weights) :=
  isDistribution_scaled (positives_nonneg weights) (ne_of_gt positive)

theorem IsDistribution.positives_pos (distribution : IsDistribution weights) :
    0 < (positives weights).sum := by
  rw [positives_eq_self distribution.natural, distribution.total]
  exact zero_lt_one

theorem IsDistribution.shares_eq (distribution : IsDistribution weights) :
    shares weights = weights := by
  rw [shares, positives_eq_self distribution.natural, distribution.total, map_div_one]

end

theorem Stream.unit_interval (start : UInt64) (n : Nat) :
    (0 : ℝ) ≤ drawAt start n / 2 ^ 23 ∧ (drawAt start n : ℝ) / 2 ^ 23 < 1 := by
  have small : (drawAt start n : ℝ) < 2 ^ 23 := by exact_mod_cast drawAt_lt start n
  exact ⟨by positivity, (div_lt_one (by positivity)).mpr small⟩

variable [Exponential]

theorem map_positivePart (weights : List ℝ) :
    (weights.map Exact.finite).map Scalar.positivePart = (positives weights).map Exact.finite := by
  rw [positives, List.map_map, List.map_map]
  exact List.map_congr_left fun w _ => Exact.positivePart_finite w

theorem Normalize.scaled_finite {xs : List ℝ} (positive : 0 < xs.sum) :
    scaled (xs.map Exact.finite) = (xs.map (· / xs.sum)).map Exact.finite := by
  simp only [scaled, Exact.sum_finite]
  split
  · exact Exact.map_div_finite xs (ne_of_gt positive)
  · rename_i unscalable
    have one : xs.sum = 1 := by
      by_contra other
      apply unscalable
      rw [isScalable, Exact.isFinite_finite, Exact.zero_eq, Exact.one_eq, Exact.finite_bne,
        decide_eq_true other, Bool.true_and, Bool.and_true, Bool.not_eq_true',
        decide_eq_false_iff_not, Exact.finite_le]
      exact not_le.mpr positive
    rw [one, map_div_one]

/-- Draw `n` of a stream as a real number. -/
theorem Stream.uniformAt_exact (start : UInt64) (n : Nat) :
    (uniformAt start n : Exact) = .finite (drawAt start n / 2 ^ 23) := by
  have parts : ((resolution : Nat) : ℝ) = 2 ^ 23 := by norm_num [resolution]
  rw [uniformAt, toUnit, Exact.ofNat_eq, Exact.ofNat_eq, parts, Exact.finite_div _ (by norm_num)]

namespace Sampler

variable {b : Buffer Exact} {weights : List ℝ} {seed : Seed} {start : UInt64}
  (flat : b.rows = none) (entries : b.entries = weights.map Exact.finite)
  (accepted : seed.expand = .ok start)
include flat entries accepted

theorem start?_finite (nonempty : weights ≠ []) : start? seed b = some start := by
  have size : b.length ≠ 0 := by
    rw [Buffer.length_flat flat, entries, List.length_map]
    exact fun empty => nonempty (List.length_eq_zero_iff.mp empty)
  have finite : b.entries.all Scalar.isFinite = true :=
    (Exact.all_isFinite_iff _).mpr ⟨weights, entries⟩
  rw [start?, decide_eq_false size, finite, accepted]
  rfl

/-- Without normalizing, the walk is over the weights that are not negative. -/
theorem withoutNormalizing_finite (nonempty : weights ≠ []) :
    withoutNormalizing seed b =
      { answer := drawIndex start ((positives weights).map Exact.finite) } := by
  rw [withoutNormalizing, start?_finite flat entries accepted nonempty, entries, map_positivePart]

/-- After normalizing, the walk is over the shares, and the shares are written unless the weights
are a distribution as they are. -/
theorem afterNormalizing_finite (positive : 0 < (positives weights).sum) :
    ∃ changed : Bool, afterNormalizing seed b =
      { answer := drawIndex start ((shares weights).map Exact.finite)
        update := if changed then .assign ((shares weights).map Exact.finite) else .keep } ∧
      (changed = false ↔ IsDistribution weights) := by
  have nonempty : weights ≠ [] := by
    rintro rfl
    exact lt_irrefl _ positive
  have nonzero : (Exact.finite (positives weights).sum == 0) = false := by
    rw [Exact.zero_eq, Exact.finite_beq, decide_eq_false (ne_of_gt positive)]
  refine ⟨Exact.finite (positives weights).sum != 1 ||
    b.entries.any fun x => decide (x < 0), ?_, ?_⟩
  · rw [afterNormalizing, start?_finite flat entries accepted nonempty]
    simp only [entries, map_positivePart, Exact.sum_finite, Exact.isFinite_finite, nonzero,
      Normalize.scaled_finite positive, Bool.not_true, Bool.false_eq_true, if_false]
    rfl
  · have least : (b.entries.any fun x => decide (x < 0)) = false ↔ ∀ w ∈ weights, 0 ≤ w := by
      simp [entries, Exact.zero_eq]
    rw [Bool.or_eq_false_iff, Exact.one_eq, Exact.finite_bne, decide_eq_false_iff_not, not_not,
      least]
    constructor
    · rintro ⟨total, natural⟩
      exact ⟨natural, positives_eq_self natural ▸ total⟩
    · rintro ⟨natural, total⟩
      exact ⟨(positives_eq_self natural).symm ▸ total, natural⟩

/-- The index is drawn from the shares, and these are left, whether or not they are written. -/
theorem afterNormalizing_shares (positive : 0 < (positives weights).sum) :
    (afterNormalizing seed b).answer = drawIndex start ((shares weights).map Exact.finite) ∧
      (afterNormalizing seed b).update.applied b.entries = (shares weights).map Exact.finite := by
  obtain ⟨changed, planned, unchanged⟩ := afterNormalizing_finite flat entries accepted positive
  rw [planned]
  refine ⟨rfl, ?_⟩
  cases changed with
  | false => rw [(unchanged.mp rfl).shares_eq]; exact entries
  | true => rfl

end Sampler

end SeededChoice
