import SeededChoice.Decimal.Digits
import SeededChoice.Proofs.Double.Rounding
import SeededChoice.Proofs.Exact.Order
import SeededChoice.Proofs.Operation.Atomicity
import SeededChoice.Proofs.Sampler.Replay
import SeededChoice.Proofs.Stream.Run

/-!
# The samplers agree

Sampling from a range and sampling after normalizing make the same checks in another order, draw
from the same weights, and take the same draw once from a stream and once by jumping ahead. What
one of them writes, the other writes or finds in place.
-/

namespace SeededChoice

/-- Entries that are values of their storage, as those of every buffer are. -/
def Buffer.Held {α : Type} [Scalar α] (b : Buffer α) : Prop :=
  ∀ x ∈ b.entries, b.storage.hold x = x

variable {α : Type} [Scalar α] {b : Buffer α}

theorem Buffer.Held.map_hold (held : b.Held) : b.entries.map b.storage.hold = b.entries := by
  rw [List.map_congr_left held, List.map_id']

/-! ### Weights -/

theorem Scalar.positivePart_pos [ComparableScalar α] {x : α} (positive : 0 < x) :
    positivePart x = x :=
  if_neg (not_lt_of_le (ComparableScalar.le_of_lt positive))

/-- A positive entry makes a total that is not zero. -/
theorem Scalar.sum_positivePart [ComparableScalar α] (finite : b.entries.all isFinite = true)
    {x : α} (listed : x ∈ b.entries) (positive : 0 < x) :
    (sum (b.entries.map positivePart) == 0) = false := by
  rw [Bool.eq_false_iff]
  intro zero
  have weights := weights_positivePart finite
  have member : x ∈ b.entries.map positivePart :=
    List.mem_map.mpr ⟨x, listed, positivePart_pos positive⟩
  have reached := OrderedScalar.lt_of_lt_of_le positive (le_sum weights.natural x member)
  exact not_lt_of_le (ComparableScalar.le_of_beq zero) reached

namespace Sampler

/-! ### Ranges -/

theorem isRange_of_lt [OrderedScalar α] {low high : α} (lower : Scalar.isFinite low = true)
    (upper : Scalar.isFinite high = true) (less : low < high) : isRange low high = true := by
  have strict : ¬ high ≤ low := fun more => Scalar.not_lt_of_le more less
  rw [isRange, lower, upper, decide_eq_false strict]
  rfl

section
variable {seed : Seed} {low high : Argument α} {l h : α} (lower : low.toReal = .ok l)
  (upper : high.toReal = .ok h) (range : isRange l h = true)
include lower upper range

theorem inRange_refused (refusal : start? seed b = none ∨ bucketWeights? b = none) :
    inRange seed low high b = .ok refusedRange := by
  simp only [inRange, lower, upper, range, bind, Except.bind, Bool.not_true, Bool.false_eq_true,
    if_false]
  split
  · rename_i started found
    rcases refusal with unstarted | unweighted
    · cases unstarted.symm.trans started
    · cases unweighted.symm.trans found
  · rfl

/-- The bucket is drawn like an index, the place inside it by the next draw, and the weights of the
buckets are written. -/
theorem inRange_drawn {start : UInt64} {weights : List α} (started : start? seed b = some start)
    (found : bucketWeights? b = some weights) :
    inRange seed low high b = .ok {
      answer := {
        status := .success
        value := some (place l h b.length (Selection.select weights (Stream.uniformAt start 0))
          (Stream.uniformAt start 1))
        bucket := (drawIndex start weights).index }
      update := .assign weights } := by
  simp only [inRange, lower, upper, range, started, found, bind, Except.bind, Bool.not_true,
    Bool.false_eq_true, if_false, Stream.ofWord_eq_after, Stream.next_after]
  rfl

end

/-! ### Plans -/

/-- Where both samplers succeed and there is a positive weight, they draw the same index, and one
writes the weights that the other writes or finds in place. -/
structure SameDraw (b : Buffer α) (p : Planned (RangeSample α) α) (q : Planned Sample α) :
    Prop where
  drawn : ∃ i, p.answer.bucket = some i ∧ q.answer.index = some i
  written : ∃ weights : List α, weights.length = b.entries.length ∧ p.update = .assign weights ∧
    (q.update = .assign weights ∨ q.update = .keep ∧ weights = b.entries)

theorem map_positivePart_natural (natural : (b.entries.any fun x => decide (x < 0)) = false) :
    b.entries.map Scalar.positivePart = b.entries := by
  have each : ∀ x ∈ b.entries, Scalar.positivePart x = x := by
    intro x listed
    have least := List.any_eq_false.mp natural x listed
    exact if_neg fun negative => least (decide_eq_true negative)
  rw [List.map_congr_left each, List.map_id']

/-- With a total that is finite and not zero, the scaled weights are drawn from. They are not
written where they are the entries themselves. -/
theorem afterNormalizing_drawn {seed : Seed} {start : UInt64}
    (started : start? seed b = some start)
    (bounded : Scalar.isFinite (Scalar.sum (b.entries.map Scalar.positivePart)) = true)
    (massive : (Scalar.sum (b.entries.map Scalar.positivePart) == 0) = false) :
    (afterNormalizing seed b).answer =
        drawIndex start (Normalize.scaled (b.entries.map Scalar.positivePart)) ∧
      ((afterNormalizing seed b).update =
          .assign (Normalize.scaled (b.entries.map Scalar.positivePart)) ∨
        (afterNormalizing seed b).update = .keep ∧
          Normalize.scaled (b.entries.map Scalar.positivePart) = b.entries) := by
  rw [afterNormalizing, started]
  simp only [bounded, massive, Bool.not_true, Bool.false_eq_true, if_false, true_and]
  split
  · exact Or.inl rfl
  · rename_i unchanged
    obtain ⟨one, natural⟩ := Bool.or_eq_false_iff.mp (Bool.not_eq_true _ ▸ unchanged)
    have unscaled : Normalize.scaled (b.entries.map Scalar.positivePart) =
        b.entries.map Scalar.positivePart := by
      rw [Normalize.scaled, Normalize.isScalable, one, Bool.and_false]
      rfl
    exact Or.inr ⟨rfl, unscaled.trans (map_positivePart_natural natural)⟩

theorem plans_agree [ComparableScalar α] (seed : Seed) {low high : Argument α} {l h : α}
    (lower : low.toReal = .ok l) (upper : high.toReal = .ok h) (range : isRange l h = true) :
    ∃ p, inRange seed low high b = .ok p ∧
      p.answer.status = (afterNormalizing seed b).answer.status ∧
      (p.answer.status = .success → (∃ x ∈ b.entries, 0 < x) →
        SameDraw b p (afterNormalizing seed b)) := by
  cases started : start? seed b with
  | none =>
    refine ⟨_, inRange_refused lower upper range (.inl started), ?_, nofun⟩
    rw [afterNormalizing, started]
    rfl
  | some start =>
    obtain ⟨-, finite, -⟩ := start?_some started
    by_cases bounded : Scalar.isFinite (Scalar.sum (b.entries.map Scalar.positivePart)) = true
    swap
    · have weightless : bucketWeights? b = none := if_pos (by simpa using bounded)
      refine ⟨_, inRange_refused lower upper range (.inr weightless), ?_, nofun⟩
      rw [afterNormalizing_overflow bounded]
      rfl
    cases massless : Scalar.sum (b.entries.map Scalar.positivePart) == 0 with
    | true =>
      have found : bucketWeights? b = some ((b.entries.map Scalar.positivePart).map fun _ =>
          1 / Scalar.ofNat b.length) := by
        simp [bucketWeights?, bounded, massless]
      have drawn := inRange_drawn lower upper range started found
      refine ⟨_, drawn, ?_, fun _ ⟨x, listed, positive⟩ => ?_⟩
      · simp [afterNormalizing, started, bounded, massless]
      · cases massless.symm.trans (Scalar.sum_positivePart finite listed positive)
    | false =>
      have found : bucketWeights? b =
          some (Normalize.scaled (b.entries.map Scalar.positivePart)) := by
        simp [bucketWeights?, bounded, massless]
      have drawn := inRange_drawn lower upper range started found
      obtain ⟨answered, updated⟩ := afterNormalizing_drawn started bounded massless
      refine ⟨_, drawn, by rw [answered]; rfl, fun _ _ => ⟨⟨_, rfl, by rw [answered]; rfl⟩, ?_⟩⟩
      exact ⟨_, length_bucketWeights found, rfl, updated⟩

end Sampler

/-! ### Steps -/

namespace Operation

variable (seed : Seed) {low high : Argument α}

theorem step_sampleInRange :
    (sampleInRange seed low high).step b =
      ((b.perform (Sampler.inRange seed low high b)).1.map .rangeSample,
        (b.perform (Sampler.inRange seed low high b)).2) :=
  perform_answering Answer.rangeSample b (Sampler.inRange seed low high b)

variable (flat : b.rows = none) (writable : b.storage.Writable)
include flat writable

/-- Nothing that a plan may write to a writable buffer is refused. -/
theorem perform_writable {ρ : Type} {p : Planned ρ α} (fits : p.update.Fits b.entries.length)
    (unfilled : ∀ value, p.update ≠ .fill value) :
    b.perform (.ok p) = (.ok p.answer, (b.update p.update).2) := by
  obtain ⟨answer, update⟩ := p
  cases update with
  | keep => rfl
  | fill value => exact absurd rfl (unfilled value)
  | assign values =>
    rw [Buffer.perform, Buffer.update_assign flat writable fits]
    rfl

/-- With weights for the buckets, sampling from a range succeeds and leaves them. -/
theorem step_drawn {l h : α} {start : UInt64} {weights : List α} (lower : low.toReal = .ok l)
    (upper : high.toReal = .ok h) (range : Sampler.isRange l h = true)
    (started : Sampler.start? seed b = some start)
    (found : Sampler.bucketWeights? b = some weights) :
    (sampleInRange seed low high).step b =
      (.ok (.rangeSample {
        status := .success
        value := some (Sampler.place l h b.length
          (Selection.select weights (Stream.uniformAt start 0)) (Stream.uniformAt start 1))
        bucket := some (Selection.select weights (Stream.uniformAt start 0)) }),
        { b with entries := weights.map b.storage.hold }) := by
  rw [step_sampleInRange, Sampler.inRange_drawn lower upper range started found,
    perform_writable flat writable (p := ⟨_, .assign weights⟩)
      (Sampler.length_bucketWeights found) nofun,
    Buffer.update_assign flat writable (Sampler.length_bucketWeights found)]
  rfl

/-- For a range from a finite number to a greater one, sampling a writable buffer of one row from
the range and sampling a copy after normalizing give the same status. Where they succeed and an
entry is positive, bucket and index are the same and so are the buffers left behind. -/
theorem samplers_agree [ComparableScalar α] {l h : α} (held : b.Held) (lower : low.toReal = .ok l)
    (upper : high.toReal = .ok h) (finiteLow : Scalar.isFinite l = true)
    (finiteHigh : Scalar.isFinite h = true) (less : l < h) :
    ∃ r s, ((sampleInRange seed low high).step b).1 = .ok (.rangeSample r) ∧
      ((sampleAfterNormalizing seed).step b).1 = .ok (.sample s) ∧
      r.status = s.status ∧
      (r.status = .success → (∃ x ∈ b.entries, 0 < x) →
        (∃ i, r.bucket = some i ∧ s.index = some i) ∧
        ((sampleInRange seed low high).step b).2 = ((sampleAfterNormalizing seed).step b).2) := by
  obtain ⟨p, planned, status, drawn⟩ := Sampler.plans_agree (b := b) seed lower upper
    (Sampler.isRange_of_lt finiteLow finiteHigh less)
  have fits : p.update.Fits b.entries.length ∧ ∀ value, p.update ≠ .fill value := by
    rcases Sampler.inRange_update planned with keep | ⟨weights, found, assign⟩
    · rw [keep]
      exact ⟨trivial, nofun⟩
    · rw [assign]
      exact ⟨Sampler.length_bucketWeights found, nofun⟩
  rw [step_sampleInRange, step_sampleAfterNormalizing, planned,
    perform_writable flat writable fits.1 fits.2,
    perform_writable flat writable (Sampler.afterNormalizing_fits seed)
      (Sampler.afterNormalizing_unfilled seed b)]
  refine ⟨_, _, rfl, rfl, status, fun succeeded positive => ?_⟩
  obtain ⟨index, weights, length, written, other⟩ := drawn succeeded positive
  refine ⟨index, ?_⟩
  rcases other with same | ⟨kept, rfl⟩
  · rw [written, same]
  · rw [written, kept, Buffer.update_assign flat writable rfl, held.map_hold]
    rfl

end Operation

/-- Singles that sum to one, so that sampling after normalizing writes nothing. -/
def Buffer.ofQuarters : Buffer Float := { storage := .row .single, entries := [0.5, 0.25, 0.25] }

/-- A negative weight beside two that are not. -/
noncomputable def Buffer.ofExact : Buffer Exact := .ofList ([-1, 3, 1].map .finite)

theorem Operation.samplers_agree_of_quarters :
    (∃ r s, ((sampleInRange (.integer 7) (.real 0.5) (.integer 2)).step Buffer.ofQuarters).1 =
        .ok (.rangeSample r) ∧
      ((sampleAfterNormalizing (.integer 7)).step Buffer.ofQuarters).1 = .ok (.sample s) ∧
      r.status = .success ∧ s.status = .success ∧ r.bucket = s.index ∧
      ((sampleInRange (.integer 7) (.real 0.5) (.integer 2)).step Buffer.ofQuarters).2 =
        ((sampleAfterNormalizing (.integer 7)).step Buffer.ofQuarters).2) ∧
    ∃ r s, ((sampleInRange (.integer 7) (.real (.finite 0)) (.real (.finite 1))).step
        Buffer.ofExact).1 = .ok (.rangeSample r) ∧
      ((sampleAfterNormalizing (.integer 7)).step Buffer.ofExact).1 = .ok (.sample s) ∧
      r.status = s.status := by
  constructor
  · have held : Buffer.ofQuarters.Held := by
      unfold Buffer.Held
      decide +kernel
    have sampled : ((sampleAfterNormalizing (.integer 7)).step Buffer.ofQuarters).1.toOption.any
        (fun | .sample s => s.status = .success | _ => false) = true := by
      decide +kernel
    have lower : (Argument.real 0.5 : Argument Float).toReal = .ok 0.5 := rfl
    have upper : (Argument.integer 2 : Argument Float).toReal = .ok 2 := by decide +kernel
    obtain ⟨r, s, ranged, indexed, status, same⟩ := samplers_agree (b := Buffer.ofQuarters)
      (.integer 7) rfl (by decide) held lower upper (by decide +kernel) (by decide +kernel)
      (by decide +kernel)
    rw [indexed] at sampled
    have succeeded : s.status = .success := of_decide_eq_true sampled
    obtain ⟨⟨i, bucket, index⟩, left⟩ := same (status.trans succeeded) ⟨0.5, .head _,
      by decide +kernel⟩
    exact ⟨r, s, ranged, indexed, status.trans succeeded, succeeded, bucket.trans index.symm, left⟩
  · have real (x : ℝ) : (Argument.real (.finite x) : Argument Exact).toReal = .ok (.finite x) := rfl
    obtain ⟨r, s, ranged, indexed, status, -⟩ := samplers_agree (b := Buffer.ofExact) (.integer 7)
      rfl (by decide) (fun _ _ => rfl) (real 0) (real 1) rfl rfl
      ((Exact.finite_lt 0 1).mpr zero_lt_one)
    exact ⟨r, s, ranged, indexed, status⟩

end SeededChoice
