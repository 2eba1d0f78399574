import SeededChoice.Operation
import SeededChoice.Proofs.Distribution.Generators

/-!
# The shape of buffers

Every operation of the library plans one value for each entry. So through any run a buffer keeps its
length, whatever is refused on the way.
-/

namespace SeededChoice

section
variable {α : Type} [Scalar α] {b : Buffer α}

theorem Floor.length_passes (floor target : α) (fuel : Nat) (entries : List (Floor.Entry α)) :
    (Floor.passes floor target fuel entries).length = entries.length := by
  induction fuel generalizing entries with
  | zero => exact List.length_map _
  | succ fuel ih =>
    rw [passes]
    split
    · rename_i values done
      unfold pass at done
      split at done
      · obtain rfl := Pass.done.inj done
        exact List.length_map _
      dsimp only at done
      split at done
      · cases done
      · obtain rfl := Pass.done.inj done
        exact List.length_map _
    · rename_i next again
      unfold pass at again
      split at again
      · cases again
      dsimp only at again
      split at again
      · obtain rfl := Pass.again.inj again
        rw [ih, List.length_map]
      · cases again

theorem Floor.enforce_fits {minimum : Argument α} {zeros : Bool} {p : Planned Status α}
    (planned : Floor.enforce minimum zeros b = .ok p) : p.update.Fits b.entries.length := by
  unfold enforce at planned
  obtain ⟨minimum, -, planned⟩ := bind_ok planned
  split at planned
  · obtain rfl := Except.ok.inj planned
    trivial
  split at planned
  · obtain rfl := Except.ok.inj planned
    trivial
  split at planned
  · obtain rfl := Except.ok.inj planned
    trivial
  split at planned
  · obtain rfl := Except.ok.inj planned
    exact List.length_map _
  · obtain rfl := Except.ok.inj planned
    show (raise minimum zeros b.entries b.length).length = _
    rw [raise, length_passes, List.length_map]

theorem Normalize.length_scaled (values : List α) :
    (Normalize.scaled values).length = values.length := by
  rw [scaled]
  split
  · exact List.length_map _
  · rfl

theorem Normalize.plan_fits : (Normalize.plan b).update.Fits b.entries.length := by
  rw [plan]
  split
  · exact List.length_map _
  · trivial

theorem Sampler.start?_error {seed : Seed} {e : Error} (refused : seed.expand = .error e) :
    Sampler.start? seed b = none := by
  unfold start?
  split
  · rfl
  · rw [refused]
    rfl

theorem Sampler.afterNormalizing_fits (seed : Seed) :
    (Sampler.afterNormalizing seed b).update.Fits b.entries.length := by
  unfold afterNormalizing
  split
  · trivial
  dsimp only
  split
  · trivial
  split
  · show ((b.entries.map Scalar.positivePart).set 0 1).length = _
    rw [List.length_set, List.length_map]
  dsimp only
  split
  · show (Normalize.scaled (b.entries.map Scalar.positivePart)).length = _
    rw [Normalize.length_scaled, List.length_map]
  · trivial

theorem Sampler.withoutNormalizing_keeps (seed : Seed) :
    (Sampler.withoutNormalizing seed b).update = .keep := by
  unfold withoutNormalizing
  split
  · rfl
  · rfl

theorem Sampler.length_bucketWeights {weights : List α}
    (found : Sampler.bucketWeights? b = some weights) : weights.length = b.entries.length := by
  unfold bucketWeights? at found
  dsimp only at found
  split at found
  · cases found
  split at found
  · obtain rfl := Option.some.inj found
    rw [List.length_map, List.length_map]
  · obtain rfl := Option.some.inj found
    rw [Normalize.length_scaled, List.length_map]

theorem Sampler.inRange_update {seed : Seed} {low high : Argument α}
    {p : Planned (RangeSample α) α} (planned : Sampler.inRange seed low high b = .ok p) :
    p.update = .keep ∨ ∃ weights, Sampler.bucketWeights? b = some weights ∧
      p.update = .assign weights := by
  unfold inRange at planned
  obtain ⟨low, -, planned⟩ := bind_ok planned
  obtain ⟨high, -, planned⟩ := bind_ok planned
  split at planned
  · obtain rfl := Except.ok.inj planned
    exact Or.inl rfl
  split at planned
  · rename_i start weights started found
    obtain rfl := Except.ok.inj planned
    exact Or.inr ⟨weights, found, rfl⟩
  · obtain rfl := Except.ok.inj planned
    exact Or.inl rfl

end

namespace Operation

/-- The operations of the library; what a caller fills in is not one of them. -/
def IsOwn {α : Type} : Operation α → Prop
  | fill _ => False
  | _ => True

def IsGenerator {α : Type} : Operation α → Prop
  | greedy _ _ _ | softmax _ _ | bag _ | bagOfCounts _ => True
  | _ => False

variable [Exponential] {op : Operation Exact} {b : Buffer Exact}

/-- The plan of a generator, as a plan with a status. -/
theorem plan_generates {p : Planned (Answer Exact) Exact} (planned : op.plan b = .ok p)
    (generator : op.IsGenerator) :
    ∃ q : Planned Status Exact, q.Generates b.length ∧ p = answering .status q := by
  cases op with
  | greedy epsilon top clamp =>
    obtain ⟨q, generated, rfl⟩ := map_ok planned
    exact ⟨q, Generator.greedy_generates generated, rfl⟩
  | softmax rate scores =>
    obtain ⟨q, generated, rfl⟩ := map_ok planned
    exact ⟨q, Generator.softmax_generates generated, rfl⟩
  | bag votes =>
    obtain ⟨q, generated, rfl⟩ := map_ok planned
    exact ⟨q, Generator.bag_generates generated, rfl⟩
  | bagOfCounts counts =>
    obtain ⟨q, generated, rfl⟩ := map_ok planned
    exact ⟨q, Generator.bagOfCounts_generates generated, rfl⟩
  | floor | normalize | sampleAfterNormalizing | sampleWithoutNormalizing | sampleInRange | fill =>
    exact generator.elim

theorem plan_fits (own : op.IsOwn) (flat : b.rows = none) {p : Planned (Answer Exact) Exact}
    (planned : op.plan b = .ok p) : p.update.Fits b.entries.length := by
  cases op with
  | greedy | softmax | bag | bagOfCounts =>
    obtain ⟨q, generates, rfl⟩ := plan_generates planned trivial
    rw [← Buffer.length_flat flat]
    exact generates.fits
  | floor minimum zeros =>
    obtain ⟨q, enforced, rfl⟩ := map_ok planned
    exact Floor.enforce_fits enforced
  | normalize =>
    obtain rfl := Except.ok.inj planned
    exact Normalize.plan_fits
  | sampleAfterNormalizing seed =>
    obtain rfl := Except.ok.inj planned
    exact Sampler.afterNormalizing_fits seed
  | sampleWithoutNormalizing seed =>
    obtain rfl := Except.ok.inj planned
    show (Sampler.withoutNormalizing seed b).update.Fits _
    rw [Sampler.withoutNormalizing_keeps]
    trivial
  | sampleInRange seed low high =>
    obtain ⟨q, drawn, rfl⟩ := map_ok planned
    show q.update.Fits _
    rcases Sampler.inRange_update drawn with keep | ⟨weights, found, assign⟩
    · rw [keep]
      trivial
    · rw [assign]
      exact Sampler.length_bucketWeights found
  | fill value => exact own.elim

end Operation

end SeededChoice
