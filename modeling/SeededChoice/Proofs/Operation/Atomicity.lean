import SeededChoice.Proofs.Double.Rounding
import SeededChoice.Proofs.Operation.Shape

/-!
# Failures write nothing

Every check and every conversion comes before the write, so an operation that does not succeed has
not touched its buffer. A plan is cautious if it writes on success only.
-/

namespace SeededChoice

section
variable {α ρ σ γ : Type} {status : ρ → Option Status}

/-- The status that an answer carries, if it carries one. -/
def Answer.status? : Answer α → Option Status
  | .status s => some s
  | .sample s => some s.status
  | .rangeSample s => some s.status
  | .total _ | .filled => none

/-- Writes nothing where the answer has a status other than success. -/
def Cautious (status : ρ → Option Status) (plan : Except Error (Planned ρ α)) : Prop :=
  ∀ p s, plan = .ok p → status p.answer = some s → s ≠ .success → p.update = .keep

theorem cautious_bind {x : Except Error γ} {f : γ → Except Error (Planned ρ α)}
    (each : ∀ a, Cautious status (f a)) : Cautious status (x >>= f) := by
  intro p s planned
  obtain ⟨a, -, continued⟩ := bind_ok planned
  exact each a p s continued

theorem cautious_keep (answer : ρ) :
    Cautious status (.ok { answer } : Except Error (Planned ρ α)) := by
  intro p s planned _ _
  obtain rfl := Except.ok.inj planned
  rfl

theorem cautious_success {answer : ρ} (succeeds : status answer = some .success) (u : Update α) :
    Cautious status (.ok { answer, update := u }) := by
  intro p s planned found failed
  obtain rfl := Except.ok.inj planned
  exact absurd (Option.some.inj (found.symm.trans succeeds)) failed

theorem cautious_answering {status' : σ → Option Status} {f : ρ → σ}
    {plan : Except Error (Planned ρ α)} (cautious : Cautious status plan)
    (same : ∀ answer, status' (f answer) = status answer) :
    Cautious status' (plan.map (Operation.answering f)) := by
  intro p s planned found
  obtain ⟨q, original, rfl⟩ := map_ok planned
  exact cautious q s original ((same q.answer).symm.trans found)

end

/-! ### Plans -/

variable {α : Type} [Scalar α]

namespace Generator

theorem greedy_cautious {epsilon top : Argument α} {clamp : Bool} {n : Nat} :
    Cautious some (greedy epsilon top clamp n) := by
  unfold greedy
  refine cautious_bind fun epsilon => ?_
  split
  · exact cautious_keep _
  refine cautious_bind fun top => ?_
  split
  · exact cautious_keep _
  · exact cautious_success rfl _

theorem softmax_cautious {rate scores : Argument α} {n : Nat} :
    Cautious some (softmax rate scores n) := by
  unfold softmax
  refine cautious_bind fun scores => ?_
  split
  · exact cautious_keep _
  split
  · exact cautious_keep _
  refine cautious_bind fun rate => ?_
  split
  · exact cautious_keep _
  split
  · exact cautious_success rfl _
  · exact cautious_success rfl _

theorem bag_cautious {votes : Argument α} {n : Nat} : Cautious some (bag votes n) := by
  unfold bag
  refine cautious_bind fun votes => ?_
  split
  · exact cautious_keep _
  split
  · exact cautious_keep _
  split
  · exact cautious_keep _
  · exact cautious_success rfl _

theorem bagOfCounts_cautious {counts : Argument α} {n : Nat} :
    Cautious some (bagOfCounts counts n) := by
  unfold bagOfCounts
  refine cautious_bind fun counts => ?_
  split
  · exact cautious_keep _
  split
  · exact cautious_keep _
  split
  · exact cautious_keep _
  dsimp only
  split
  · exact cautious_success rfl _
  · exact cautious_success rfl _

end Generator

theorem Floor.enforce_cautious {minimum : Argument α} {zeros : Bool} {b : Buffer α} :
    Cautious some (Floor.enforce minimum zeros b) := by
  unfold enforce
  refine cautious_bind fun minimum => ?_
  split
  · exact cautious_keep _
  split
  · exact cautious_keep _
  split
  · exact cautious_keep _
  split
  · exact cautious_success rfl _
  · exact cautious_success rfl _

namespace Sampler

theorem afterNormalizing_cautious {seed : Seed} {b : Buffer α} :
    Cautious (fun s : Sample => some s.status) (.ok (afterNormalizing seed b)) := by
  unfold afterNormalizing
  split
  · exact cautious_keep _
  dsimp only
  split
  · exact cautious_keep _
  split
  · exact cautious_success (by rfl) _
  · exact cautious_success (by rfl) _

theorem inRange_cautious {seed : Seed} {low high : Argument α} {b : Buffer α} :
    Cautious (fun s : RangeSample α => some s.status) (inRange seed low high b) := by
  unfold inRange
  refine cautious_bind fun low => cautious_bind fun high => ?_
  split
  · exact cautious_keep _
  split
  · exact cautious_success (by rfl) _
  · exact cautious_keep _

end Sampler

/-! ### Operations -/

namespace Operation

variable (op : Operation α) (b : Buffer α)

/-- The operation goes on to write the buffer, whether the write is refused or not. -/
def Attempts : Prop := ∃ p, op.plan b = .ok p ∧ p.update ≠ .keep

theorem plan_cautious : Cautious Answer.status? (op.plan b) := by
  cases op with
  | greedy => exact cautious_answering Generator.greedy_cautious fun _ => rfl
  | softmax => exact cautious_answering Generator.softmax_cautious fun _ => rfl
  | bag => exact cautious_answering Generator.bag_cautious fun _ => rfl
  | bagOfCounts => exact cautious_answering Generator.bagOfCounts_cautious fun _ => rfl
  | floor => exact cautious_answering Floor.enforce_cautious fun _ => rfl
  | normalize =>
    intro p s planned found
    obtain rfl := Except.ok.inj planned
    cases found
  | sampleAfterNormalizing seed =>
    exact cautious_answering Sampler.afterNormalizing_cautious fun _ => rfl
  | sampleWithoutNormalizing seed =>
    intro p s planned _ _
    obtain rfl := Except.ok.inj planned
    exact Sampler.withoutNormalizing_keeps seed
  | sampleInRange => exact cautious_answering Sampler.inRange_cautious fun _ => rfl
  | fill =>
    intro p s planned found
    obtain rfl := Except.ok.inj planned
    cases found

variable {op b}

theorem step_error {e : Error} (refused : op.plan b = .error e) :
    ¬ op.Attempts b ∧ op.step b = (.error e, b) := by
  constructor
  · rintro ⟨p, planned, -⟩
    cases refused.symm.trans planned
  · rw [step, refused, Buffer.perform_error]

theorem step_keep {p : Planned (Answer α) α} (planned : op.plan b = .ok p)
    (keep : p.update = .keep) : ¬ op.Attempts b ∧ op.step b = (.ok p.answer, b) := by
  constructor
  · rintro ⟨q, again, written⟩
    obtain rfl := Except.ok.inj (planned.symm.trans again)
    exact written keep
  · rw [step, planned, Buffer.perform, keep]
    rfl

theorem step_failed {answer : Answer α} {s : Status} (answered : (op.step b).1 = .ok answer)
    (found : answer.status? = some s) (failed : s ≠ .success) :
    ¬ op.Attempts b ∧ (op.step b).2 = b := by
  cases planned : op.plan b with
  | error e =>
    rw [(step_error planned).2] at answered
    cases answered
  | ok p =>
    have done := answered
    rw [step, planned] at done
    obtain ⟨-, rfl⟩ := Buffer.perform_ok done
    have keep := plan_cautious op b p s planned found failed
    obtain ⟨idle, stepped⟩ := step_keep planned keep
    exact ⟨idle, by rw [stepped]⟩

end Operation

/-! ### Totals out of range -/

section
variable {b : Buffer α}
  (overflow : ¬ Scalar.isFinite (Scalar.sum (b.entries.map Scalar.positivePart)) = true)
include overflow

theorem Sampler.afterNormalizing_overflow (seed : Seed) : afterNormalizing seed b = refused := by
  unfold afterNormalizing
  split
  · rfl
  · exact if_pos (by simpa using overflow)

theorem Sampler.inRange_overflow {seed : Seed} {low high : Argument α}
    {p : Planned (RangeSample α) α} (planned : inRange seed low high b = .ok p) :
    p = refusedRange := by
  have weightless : bucketWeights? b = none := if_pos (by simpa using overflow)
  unfold inRange at planned
  obtain ⟨low, -, planned⟩ := bind_ok planned
  obtain ⟨high, -, planned⟩ := bind_ok planned
  split at planned
  · exact (Except.ok.inj planned).symm
  split at planned
  · rename_i found
    cases weightless.symm.trans found
  · exact (Except.ok.inj planned).symm

end

variable [OrderedScalar α]

theorem Normalize.plan_massless {b : Buffer α}
    (massless : ¬ (Scalar.isFinite (Scalar.sum b.entries) = true ∧ 0 < Scalar.sum b.entries)) :
    (plan b).update = .keep := by
  apply if_neg
  intro scalable
  simp only [isScalable, Bool.and_eq_true, Bool.not_eq_true', decide_eq_false_iff_not] at scalable
  obtain ⟨⟨finite, above⟩, -⟩ := scalable
  have below : ¬ 0 < Scalar.sum b.entries := fun positive => massless ⟨finite, positive⟩
  exact above (OrderedScalar.le_of_not_lt finite OrderedScalar.isFinite_zero below)

/-- An operation that answers a failure, or refuses an argument, attempts no write and leaves the
buffer as it was. So do the samplers where the total overflows, normalizing where the total is not
positive and finite, and sampling without normalizing whatever it answers. -/
theorem Operation.failures_write_nothing (op : Operation α) (b : Buffer α) :
    (∀ answer s, (op.step b).1 = .ok answer → answer.status? = some s → s ≠ .success →
      ¬ op.Attempts b ∧ (op.step b).2 = b) ∧
    (∀ e, op.plan b = .error e → ¬ op.Attempts b ∧ op.step b = (.error e, b)) ∧
    (¬ Scalar.isFinite (Scalar.sum (b.entries.map Scalar.positivePart)) = true → ∀ seed,
      (¬ (sampleAfterNormalizing seed).Attempts b ∧
        (sampleAfterNormalizing seed).step b = (.ok (.sample { status := .badRange }), b)) ∧
      ∀ low high, ¬ (sampleInRange seed low high).Attempts b ∧
        ((sampleInRange seed low high).step b).2 = b ∧
        ∀ answer, ((sampleInRange seed low high).step b).1 = .ok answer →
          answer = .rangeSample { status := .badRange }) ∧
    (¬ (Scalar.isFinite (Scalar.sum b.entries) = true ∧ 0 < Scalar.sum b.entries) →
      ¬ normalize.Attempts b ∧ normalize.step b = (.ok (.total (Scalar.sum b.entries)), b)) ∧
    ∀ seed, ¬ (sampleWithoutNormalizing seed).Attempts b ∧
      ((sampleWithoutNormalizing seed).step b).2 = b := by
  refine ⟨fun answer s => step_failed, fun e => step_error, fun overflow seed => ⟨?_, ?_⟩,
    fun massless => ?_, fun seed => ?_⟩
  · have planned : (sampleAfterNormalizing seed).plan b = .ok (answering .sample Sampler.refused) := by
      rw [plan, Sampler.afterNormalizing_overflow overflow seed]
    exact step_keep planned rfl
  · intro low high
    cases planned : (sampleInRange seed low high).plan b with
    | error e =>
      obtain ⟨idle, stepped⟩ := step_error planned
      rw [stepped]
      exact ⟨idle, rfl, fun answer answered => by cases answered⟩
    | ok p =>
      obtain ⟨q, drawn, rfl⟩ := map_ok planned
      obtain rfl := Sampler.inRange_overflow overflow drawn
      obtain ⟨idle, stepped⟩ := step_keep planned rfl
      rw [stepped]
      exact ⟨idle, rfl, fun answer answered => (Except.ok.inj answered).symm⟩
  · have planned : normalize.plan b = .ok (answering .total (Normalize.plan b)) := rfl
    exact step_keep planned (Normalize.plan_massless massless)
  · have planned : (sampleWithoutNormalizing seed).plan b =
      .ok (answering .sample (Sampler.withoutNormalizing seed b)) := rfl
    obtain ⟨idle, stepped⟩ := step_keep planned (Sampler.withoutNormalizing_keeps seed)
    exact ⟨idle, by rw [stepped]⟩

/-- Two weights whose total overflows. -/
def Buffer.overflowing : Buffer Float := .ofList [1.7e308, 1.7e308]

theorem Operation.failures_write_nothing_of_overflow :
    (((greedy (.real 2.0) (.integer 0) false).step Buffer.overflowing).1 = .ok (.status .badRange) ∧
      ((greedy (.real 2.0) (.integer 0) false).step Buffer.overflowing).2 = Buffer.overflowing) ∧
    ((floor .absent false).plan Buffer.overflowing = .error .wrongKind ∧
      (floor .absent false).step Buffer.overflowing = (.error .wrongKind, Buffer.overflowing)) ∧
    (sampleAfterNormalizing (.integer 7)).step Buffer.overflowing =
      (.ok (.sample { status := .badRange }), Buffer.overflowing) ∧
    ¬ normalize.Attempts Buffer.overflowing := by
  have failed : ((greedy (.real 2.0) (.integer 0) false).step Buffer.overflowing).1 =
    .ok (.status .badRange) := rfl
  have refused : (floor .absent false).plan Buffer.overflowing = .error .wrongKind := rfl
  have overflow : ¬ Scalar.isFinite
      (Scalar.sum (Buffer.overflowing.entries.map Scalar.positivePart)) = true := by
    decide +kernel
  have massless : ¬ (Scalar.isFinite (Scalar.sum Buffer.overflowing.entries) = true ∧
      0 < Scalar.sum Buffer.overflowing.entries) := by
    decide +kernel
  obtain ⟨failure, -, -, -, -⟩ :=
    failures_write_nothing (greedy (.real 2.0) (.integer 0) false) Buffer.overflowing
  obtain ⟨-, error, overflowed, normalized, -⟩ :=
    failures_write_nothing (floor .absent false) Buffer.overflowing
  exact ⟨⟨failed, (failure _ _ failed rfl (by decide)).2⟩, ⟨refused, (error _ refused).2⟩,
    (overflowed overflow (.integer 7)).1.2, (normalized massless).1⟩

end SeededChoice
