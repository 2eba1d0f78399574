import SeededChoice.Proofs.Floor.Enforce
import SeededChoice.Proofs.Operation.Shape
import SeededChoice.Proofs.Sampler.Shares

/-!
# Distributions along runs

Once a generator has succeeded, its buffer holds a distribution, and no operation of the library
takes it away again: floors conserve its mass, and normalizing and sampling find nothing to scale.
-/

namespace SeededChoice

section
variable {zeros : Bool} {xs ys : List ℝ}

/-! ### Floors -/

namespace Floor

/-- What is eligible is positive or zero, and what is positive is eligible. -/
theorem sum_eligibles_positives (zeros : Bool) (xs : List ℝ) :
    (eligibles zeros xs).sum = (positives xs).sum := by
  induction xs with
  | nil => rfl
  | cons x rest ih =>
    unfold eligibles positives at ih ⊢
    rw [List.filter_cons, List.map_cons, List.sum_cons, ← ih]
    split
    · rename_i listed
      rw [List.sum_cons, max_eq_left (nonneg_of_eligible listed)]
    · rename_i excluded
      have least : x ≤ 0 := not_lt.mp fun positive => excluded (eligible_of_pos positive)
      rw [max_eq_right least, zero_add]

theorem sum_eligibles (natural : ∀ x ∈ xs, 0 ≤ x) : (eligibles zeros xs).sum = xs.sum := by
  rw [sum_eligibles_positives, positives_eq_self natural]

theorem isDistribution_of_eligibles (natural : ∀ y ∈ ys, 0 ≤ y)
    (mass : (eligibles zeros ys).sum = 1) : IsDistribution ys :=
  ⟨natural, (sum_eligibles natural).symm.trans mass⟩

theorem evened_nonneg (natural : ∀ x ∈ xs, 0 ≤ x) : ∀ y ∈ evened zeros xs, 0 ≤ y := by
  intro y member
  obtain ⟨x, listed, rfl⟩ := List.mem_map.mp member
  split
  · positivity
  · exact natural x listed

theorem Levels.nonneg {level : ℝ} (levels : Levels zeros level xs ys)
    (natural : ∀ x ∈ xs, 0 ≤ x) : ∀ y ∈ ys, 0 ≤ y := by
  obtain ⟨factor, least, -, rfl, -⟩ := levels
  intro y member
  obtain ⟨x, listed, rfl⟩ := List.mem_map.mp member
  unfold lift
  split
  · exact (mul_nonneg (natural x listed) least).trans (le_max_right _ _)
  · exact natural x listed

theorem Enforced.isDistribution {minimum : ℝ} (enforced : Enforced zeros minimum xs ys)
    (distribution : IsDistribution xs) : IsDistribution ys := by
  unfold Enforced at enforced
  split at enforced
  · rwa [enforced]
  rename_i work
  obtain ⟨present, -⟩ := not_or.mp work
  split at enforced
  · obtain rfl := enforced
    exact isDistribution_of_eligibles (evened_nonneg distribution.natural)
      (sum_eligibles_evened present)
  · have mass : (eligibles zeros ys).sum = 1 := by
      rw [enforced.sum_eq, sum_eligibles distribution.natural, distribution.total]
    exact isDistribution_of_eligibles (enforced.nonneg distribution.natural) mass

end Floor

end

/-- The entries are finite and form a distribution. -/
def Buffer.HoldsDistribution (b : Buffer Exact) : Prop :=
  ∃ xs : List ℝ, b.entries = xs.map .finite ∧ IsDistribution xs

section
variable [Exponential] {b : Buffer Exact} {xs : List ℝ} (flat : b.rows = none)
  (entries : b.entries = xs.map Exact.finite) (distribution : IsDistribution xs)
include entries distribution

/-! ### Normalizing and sampling -/

theorem Normalize.plan_keeps : (Normalize.plan b).update = .keep := by
  have unscalable : ¬ isScalable (Exact.finite xs.sum) = true := by
    rw [distribution.total, isScalable, Exact.one_eq, Exact.finite_bne]
    simp
  rw [plan, entries, Exact.sum_finite]
  exact if_neg unscalable

theorem Sampler.bucketWeights_eq {weights : List Exact}
    (found : bucketWeights? b = some weights) : weights = b.entries := by
  have natural : positives xs = xs := positives_eq_self distribution.natural
  have positive : 0 < xs.sum := distribution.total ▸ zero_lt_one
  have massive : (Exact.finite xs.sum == 0) = false := by
    rw [Exact.zero_eq, Exact.finite_beq, decide_eq_false (ne_of_gt positive)]
  unfold bucketWeights? at found
  simp only [entries, map_positivePart, natural, Exact.sum_finite, Exact.isFinite_finite, massive,
    Normalize.scaled_finite positive, Bool.not_true, Bool.false_eq_true, if_false] at found
  rw [← Option.some.inj found, entries, distribution.total, map_div_one]

include flat

theorem Sampler.afterNormalizing_applied (seed : Seed) :
    (afterNormalizing seed b).update.applied b.entries = b.entries := by
  cases expanded : seed.expand with
  | error e =>
    rw [afterNormalizing, start?_error expanded]
    rfl
  | ok start =>
    obtain ⟨-, left⟩ := afterNormalizing_shares flat entries expanded distribution.positives_pos
    rw [left, distribution.shares_eq, entries]

theorem Floor.enforce_applied {minimum : Argument Exact} {zeros : Bool} {p : Planned Status Exact}
    (planned : enforce minimum zeros b = .ok p) :
    ∃ ys : List ℝ, p.update.applied b.entries = ys.map .finite ∧ IsDistribution ys := by
  -- The argument may be any: only one that reads as a number in range gets past the checks.
  have original := planned
  unfold enforce at planned
  obtain ⟨v, read, planned⟩ := bind_ok planned
  cases inside : Scalar.inUnitInterval v with
  | false =>
    rw [inside, Bool.not_false, Bool.or_true, if_pos rfl] at planned
    obtain rfl := Except.ok.inj planned
    exact ⟨xs, entries, distribution⟩
  | true =>
    obtain ⟨m, rfl, least, most⟩ := (Exact.inUnitInterval_iff _).mp inside
    have real : enforce minimum zeros b = enforce (.real (.finite m)) zeros b := by
      unfold enforce
      rw [read]
      rfl
    obtain ⟨u, ys, accepted, -, applied, enforced⟩ :=
      enforce_finite zeros flat entries distribution.ne_nil least most
    rw [real, accepted] at original
    obtain rfl := Except.ok.inj original
    exact ⟨ys, applied, enforced.isDistribution distribution⟩

end

/-! ### Steps and runs -/

namespace Operation

section
variable [Exponential] {b : Buffer Exact} {op : Operation Exact}

/-- A plan for a distribution writes a distribution. -/
theorem plan_distribution (own : op.IsOwn) (flat : b.rows = none) (holds : b.HoldsDistribution)
    {p : Planned (Answer Exact) Exact} (planned : op.plan b = .ok p) :
    ∃ ys : List ℝ, p.update.applied b.entries = ys.map .finite ∧ IsDistribution ys := by
  obtain ⟨xs, entries, distribution⟩ := holds
  cases op with
  | greedy | softmax | bag | bagOfCounts =>
    obtain ⟨q, generates, rfl⟩ := plan_generates planned trivial
    rw [Buffer.length_flat flat] at generates
    rcases generates with ⟨-, keep⟩ | ⟨-, distributes⟩
    · exact ⟨xs, by rw [answering, keep]; exact entries, distribution⟩
    · exact distributes.applied
  | floor minimum zeros =>
    obtain ⟨q, enforced, rfl⟩ := map_ok planned
    exact Floor.enforce_applied flat entries distribution enforced
  | normalize =>
    obtain rfl := Except.ok.inj planned
    refine ⟨xs, ?_, distribution⟩
    rw [answering, Normalize.plan_keeps entries distribution]
    exact entries
  | sampleAfterNormalizing seed =>
    obtain rfl := Except.ok.inj planned
    exact ⟨xs, (Sampler.afterNormalizing_applied flat entries distribution seed).trans entries,
      distribution⟩
  | sampleWithoutNormalizing seed =>
    obtain rfl := Except.ok.inj planned
    refine ⟨xs, ?_, distribution⟩
    rw [answering, Sampler.withoutNormalizing_keeps]
    exact entries
  | sampleInRange seed low high =>
    obtain ⟨q, drawn, rfl⟩ := map_ok planned
    refine ⟨xs, ?_, distribution⟩
    rcases Sampler.inRange_update drawn with keep | ⟨weights, found, assign⟩
    · rw [answering, keep]
      exact entries
    · rw [answering, assign, Sampler.bucketWeights_eq entries distribution found]
      exact entries
  | fill value => exact own.elim

/-- An operation leaves its buffer alone or writes what it planned. -/
theorem step_cases (own : op.IsOwn) (flat : b.rows = none) (keeps : b.storage.KeepsReals) :
    (op.step b).2 = b ∨ ∃ p, op.plan b = .ok p ∧ p.update.Fits b.entries.length ∧
      (op.step b).2 = { b with entries := p.update.applied b.entries } := by
  by_cases writable : b.storage.Writable
  · cases planned : op.plan b with
    | error e =>
      left
      rw [step, planned, Buffer.perform_error]
    | ok p =>
      have fits := plan_fits own flat planned
      refine Or.inr ⟨p, rfl, fits, ?_⟩
      rw [step, planned, Buffer.perform_exact flat writable keeps fits]
  · left
    exact Buffer.perform_locked writable _

theorem step_shape (own : op.IsOwn) (flat : b.rows = none) (keeps : b.storage.KeepsReals) :
    (op.step b).2.storage = b.storage ∧ (op.step b).2.rows = none ∧
      (op.step b).2.entries.length = b.entries.length := by
  rcases step_cases own flat keeps with kept | ⟨p, -, fits, written⟩
  · rw [kept]
    exact ⟨rfl, flat, rfl⟩
  · rw [written]
    exact ⟨rfl, flat, Update.length_applied fits⟩

theorem step_distribution (own : op.IsOwn) (flat : b.rows = none) (keeps : b.storage.KeepsReals)
    (holds : b.HoldsDistribution) : (op.step b).2.HoldsDistribution := by
  rcases step_cases own flat keeps with kept | ⟨p, planned, -, written⟩
  · rwa [kept]
  · rw [written]
    exact plan_distribution own flat holds planned

/-- A generator can only succeed by writing a distribution. -/
theorem step_generator (generator : op.IsGenerator) (flat : b.rows = none)
    (keeps : b.storage.KeepsReals) (succeeded : (op.step b).1 = .ok (.status .success)) :
    (op.step b).2.HoldsDistribution := by
  cases planned : op.plan b with
  | error e =>
    rw [step, planned, Buffer.perform_error] at succeeded
    cases succeeded
  | ok p =>
    obtain ⟨q, generates, rfl⟩ := plan_generates planned generator
    rw [step, planned] at succeeded
    obtain ⟨updated, answered⟩ := Buffer.perform_ok succeeded
    rw [Buffer.length_flat flat] at generates
    rcases generates with ⟨failure, -⟩ | ⟨-, distributes⟩
    · exact absurd (Answer.status.inj answered) failure
    by_cases writable : b.storage.Writable
    · have fits : (answering (Answer.status : Status → Answer Exact) q).update.Fits
          b.entries.length := distributes.fits
      rw [step, planned, Buffer.perform_exact flat writable keeps fits]
      exact distributes.applied
    · exact absurd updated (distributes.refused flat writable)

theorem run_shape {ops : List (Operation Exact)} (own : ∀ op ∈ ops, op.IsOwn)
    (flat : b.rows = none) (keeps : b.storage.KeepsReals) :
    (run b ops).storage = b.storage ∧ (run b ops).rows = none ∧
      (run b ops).entries.length = b.entries.length := by
  induction ops generalizing b with
  | nil => exact ⟨rfl, flat, rfl⟩
  | cons op rest ih =>
    obtain ⟨first, others⟩ := List.forall_mem_cons.mp own
    obtain ⟨storage, rows, length⟩ := step_shape first flat keeps
    obtain ⟨storageAfter, rowsAfter, lengthAfter⟩ := ih others rows (storage ▸ keeps)
    exact ⟨storageAfter.trans storage, rowsAfter, lengthAfter.trans length⟩

theorem run_distribution {ops : List (Operation Exact)} (own : ∀ op ∈ ops, op.IsOwn)
    (flat : b.rows = none) (keeps : b.storage.KeepsReals) (holds : b.HoldsDistribution) :
    (run b ops).HoldsDistribution := by
  induction ops generalizing b with
  | nil => exact holds
  | cons op rest ih =>
    obtain ⟨first, others⟩ := List.forall_mem_cons.mp own
    obtain ⟨storage, rows, -⟩ := step_shape first flat keeps
    exact ih others rows (storage ▸ keeps) (step_distribution first flat keeps holds)

/-- Once a generator has succeeded on a buffer of one row, the buffer holds a distribution of its
first length through every later operation, whether that succeeds or fails. -/
theorem run_generator_distribution (flat : b.rows = none) (keeps : b.storage.KeepsReals)
    {before after : List (Operation Exact)} {g : Operation Exact}
    (own : ∀ op ∈ before ++ g :: after, op.IsOwn) (generator : g.IsGenerator)
    (succeeded : (g.step (run b before)).1 = .ok (.status .success)) :
    (run b (before ++ g :: after)).length = b.length ∧
      ∃ xs : List ℝ, (run b (before ++ g :: after)).entries = xs.map .finite ∧
        (∀ x ∈ xs, 0 ≤ x) ∧ xs.sum = 1 := by
  have parts : run b (before ++ g :: after) = run (g.step (run b before)).2 after := by
    rw [run, List.foldl_append]
    rfl
  have ownBefore : ∀ op ∈ before, op.IsOwn := fun op member =>
    own op (List.mem_append_left _ member)
  have ownAfter : ∀ op ∈ after, op.IsOwn := fun op member =>
    own op (List.mem_append_right _ (List.mem_cons_of_mem _ member))
  have ownGenerator : g.IsOwn := own g (List.mem_append_right _ List.mem_cons_self)
  obtain ⟨storageBefore, rowsBefore, -⟩ := run_shape ownBefore flat keeps
  have keepsBefore : (run b before).storage.KeepsReals := storageBefore ▸ keeps
  obtain ⟨storageStep, rowsStep, -⟩ := step_shape ownGenerator rowsBefore keepsBefore
  have written := step_generator generator rowsBefore keepsBefore succeeded
  obtain ⟨-, rows, length⟩ := run_shape own flat keeps
  obtain ⟨xs, entries, distribution⟩ :=
    run_distribution ownAfter rowsStep (storageStep ▸ keepsBefore) written
  refine ⟨?_, xs, parts ▸ entries, distribution.natural, distribution.total⟩
  rw [Buffer.length_flat rows, Buffer.length_flat flat, length]

end

theorem run_generator_distribution_of_votes :
    ((Operation.bag (.list [.integer 0, .integer 2, .integer 2])).step
        (run (Buffer.ofList [Exact.nan, Exact.finite 5, Exact.infinite true])
          [.greedy .absent .absent false])).1 = .ok (.status .success) ∧
      ∃ xs : List ℝ,
        (run (Buffer.ofList [Exact.nan, Exact.finite 5, Exact.infinite true])
          [.greedy .absent .absent false, .bag (.list [.integer 0, .integer 2, .integer 2]),
            .floor (.real (.finite (1 / 2))) true, .normalize]).entries = xs.map .finite ∧
        (∀ x ∈ xs, 0 ≤ x) ∧ xs.sum = 1 := by
  have succeeded : ((Operation.bag (.list [.integer 0, .integer 2, .integer 2])).step
      (run (Buffer.ofList [Exact.nan, Exact.finite 5, Exact.infinite true])
        [.greedy .absent .absent false])).1 = .ok (.status .success) := rfl
  have generator : (Operation.bag (.list [.integer 0, .integer 2, .integer 2]) :
      Operation Exact).IsGenerator := trivial
  refine ⟨succeeded, (run_generator_distribution rfl (by decide) ?_ generator succeeded).2⟩
  simp [IsOwn]

end Operation

end SeededChoice
