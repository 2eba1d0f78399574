import SeededChoice.Proofs.Operation.Shape
import SeededChoice.Proofs.Scalar.Ordered
import SeededChoice.Proofs.Sampler.Walk
import SeededChoice.Proofs.Stream.Jump

/-!
# Replayed draws

The weights that an index was drawn from are those that are left in the buffer, and an expanded seed
expands to itself. So the draw without normalizing selects the same index again, under any rounding
that keeps order.
-/

namespace SeededChoice

open OrderedScalar

variable {α : Type} [Scalar α]

/-! ### Weights -/

/-- Finite numbers, none of them negative. -/
def Weights (xs : List α) : Prop := ∀ x ∈ xs, Scalar.isFinite x = true ∧ 0 ≤ x

section
variable {xs : List α}

theorem Weights.finite (weights : Weights xs) : xs.all Scalar.isFinite = true :=
  List.all_eq_true.mpr fun x member => (weights x member).1

theorem Weights.natural (weights : Weights xs) : ∀ x ∈ xs, 0 ≤ x :=
  fun x member => (weights x member).2

variable [OrderedScalar α]

theorem Weights.map_positivePart (weights : Weights xs) : xs.map Scalar.positivePart = xs := by
  have each : ∀ x ∈ xs, Scalar.positivePart x = x := fun x member =>
    if_neg (Scalar.not_lt_of_le (weights x member).2)
  rw [List.map_congr_left each, List.map_id']

theorem weights_positivePart (finite : xs.all Scalar.isFinite = true) :
    Weights (xs.map Scalar.positivePart) := by
  intro y member
  obtain ⟨x, listed, rfl⟩ := List.mem_map.mp member
  have number := List.all_eq_true.mp finite x listed
  unfold Scalar.positivePart
  split
  · exact ⟨isFinite_zero, Scalar.zero_le_zero⟩
  · rename_i notNegative
    exact ⟨number, le_of_not_lt isFinite_zero number notNegative⟩

theorem Weights.set_one (weights : Weights xs) (i : Nat) : Weights (xs.set i 1) := by
  intro x member
  rcases List.mem_or_eq_of_mem_set member with listed | rfl
  · exact weights x listed
  · exact ⟨isFinite_one, zero_le_one⟩

theorem Weights.scaled (weights : Weights xs) : Weights (Normalize.scaled xs) := by
  unfold Normalize.scaled
  dsimp only
  split
  · rename_i scalable
    simp only [Normalize.isScalable, Bool.and_eq_true, Bool.not_eq_true',
      decide_eq_false_iff_not] at scalable
    obtain ⟨⟨finite, positive⟩, -⟩ := scalable
    intro y member
    obtain ⟨x, listed, rfl⟩ := List.mem_map.mp member
    exact div_total (weights x listed).2 (Scalar.le_sum weights.natural x listed) finite positive
  · exact weights

end

/-! ### The first weight -/

namespace Selection

theorem isPast_of_lt {draw sum : α} (less : draw < sum) : isPast draw sum = true := by
  rw [isPast, decide_eq_true less, Bool.true_or]

variable [OrderedScalar α]

theorem le_runningSums {x : α} {xs : List α} (weights : Weights (x :: xs)) :
    ∀ s ∈ Scalar.runningSums (x :: xs), x ≤ s := by
  obtain ⟨⟨-, first⟩, others⟩ := List.forall_mem_cons.mp weights
  have natural : ∀ y ∈ xs, 0 ≤ y := fun y member => (others y member).2
  exact List.forall_mem_cons.mpr ⟨le_self first, Scalar.le_runningSumsFrom first natural⟩

/-- A first weight beyond the draw is selected, whatever the others are. -/
theorem select_first {draw x : α} {xs : List α} (weights : Weights (x :: xs)) (beyond : draw < x) :
    select (x :: xs) draw = 0 := by
  have reached : ∀ j < (Scalar.runningSums (x :: xs)).toArray.size,
      past draw (Scalar.runningSums (x :: xs)).toArray j = true := by
    intro j inside
    apply isPast_of_lt
    apply lt_of_lt_of_le beyond
    apply le_runningSums weights
    rw [Array.getD, dif_pos inside]
    exact List.getElem_mem _
  have size : 0 < (Scalar.runningSums (x :: xs)).toArray.size := by simp
  apply select_eq
  · exact fun i j _ inside _ => reached j inside
  · exact Nat.succ_pos _
  · exact reached 0 size
  · exact fun j earlier => absurd earlier (Nat.not_lt_zero j)

/-- With the whole mass on the first weight, every draw below one selects it. -/
theorem select_set_one {draw : α} {xs : List α} (weights : Weights xs) (below : draw < 1) :
    select (xs.set 0 1) draw = 0 := by
  cases xs with
  | nil => exact Nat.le_zero.mp (Nat.min_le_right _ _)
  | cons x rest => exact select_first (weights.set_one 0) below

end Selection

theorem Stream.uniformAt_lt_one [OrderedScalar α] (start : UInt64) (n : Nat) :
    (uniformAt start n : α) < 1 :=
  toUnit_lt_one (drawAt_lt start n)

/-! ### Sampling again -/

namespace Sampler

variable {seed : Seed} {b after : Buffer α}

/-- What is known of a sampling after normalizing that has drawn an index. -/
theorem afterNormalizing_success {i : Nat}
    (sampled : (afterNormalizing seed b).answer = { status := .success, index := some i }) :
    ∃ start, start? seed b = some start ∧
      ((i = 0 ∧ (afterNormalizing seed b).update =
          .assign ((b.entries.map Scalar.positivePart).set 0 1)) ∨
        (i = Selection.select (Normalize.scaled (b.entries.map Scalar.positivePart))
            (Stream.uniformAt start 0) ∧
          ((afterNormalizing seed b).update =
              .assign (Normalize.scaled (b.entries.map Scalar.positivePart)) ∨
            (afterNormalizing seed b).update = .keep ∧
              Normalize.scaled (b.entries.map Scalar.positivePart) =
                b.entries.map Scalar.positivePart))) := by
  unfold afterNormalizing at sampled ⊢
  split at sampled
  · cases sampled
  rename_i start started
  rw [started]
  refine ⟨start, rfl, ?_⟩
  dsimp only at sampled ⊢
  split at sampled
  · cases sampled
  rename_i bounded
  rw [if_neg bounded]
  split at sampled
  · rename_i massless
    rw [if_pos massless]
    exact Or.inl ⟨(Option.some.inj (congrArg Sample.index sampled)).symm, rfl⟩
  rename_i massive
  rw [if_neg massive]
  dsimp only at sampled ⊢
  refine Or.inr ⟨(Option.some.inj (congrArg Sample.index sampled)).symm, ?_⟩
  split
  · exact Or.inl rfl
  · rename_i unchanged
    refine Or.inr ⟨rfl, ?_⟩
    have one := (Bool.or_eq_false_iff.mp (Bool.not_eq_true _ ▸ unchanged)).1
    rw [Normalize.scaled, Normalize.isScalable, one, Bool.and_false]
    rfl

theorem start?_some {start : UInt64} (started : start? seed b = some start) :
    b.length ≠ 0 ∧ b.entries.all Scalar.isFinite = true ∧ seed.expand = .ok start := by
  unfold start? at started
  split at started
  · cases started
  rename_i checked
  simp only [Bool.or_eq_true, decide_eq_true_eq, Bool.not_eq_true', not_or,
    Bool.not_eq_false] at checked
  refine ⟨checked.1, checked.2, ?_⟩
  cases expanded : seed.expand with
  | error e =>
    rw [expanded] at started
    cases started
  | ok word =>
    rw [expanded] at started
    exact congrArg _ (Option.some.inj started)

/-- The stream of a seed is that of its expansion. -/
theorem start?_ofWord {start : UInt64} (expanded : seed.expand = .ok start) :
    start? (.ofWord start) b = start? seed b := by
  rw [start?, start?, Seed.expand_ofWord, expanded]

theorem withoutNormalizing_ofWord (start : UInt64) (nonempty : after.length ≠ 0)
    (finite : after.entries.all Scalar.isFinite = true) :
    withoutNormalizing (.ofWord start) after =
      { answer := drawIndex start (after.entries.map Scalar.positivePart) } := by
  have started : start? (.ofWord start) after = some start := by
    rw [start?, decide_eq_false nonempty, finite, Seed.expand_ofWord]
    rfl
  rw [withoutNormalizing, started]

variable [OrderedScalar α]

/-- Weights that are left in a buffer are drawn from once more. -/
theorem withoutNormalizing_weights (start : UInt64) {weights : List α} (valid : Weights weights)
    (nonempty : after.length ≠ 0) (left : after.entries = weights) :
    withoutNormalizing (.ofWord start) after = { answer := drawIndex start weights } := by
  rw [withoutNormalizing_ofWord start nonempty (left ▸ valid.finite), left, valid.map_positivePart]

/-- Sampling again finds the index, on each of the ways that the weights are left behind. -/
theorem withoutNormalizing_again {i : Nat}
    (sampled : (afterNormalizing seed b).answer = { status := .success, index := some i })
    (length : after.length = b.length)
    (left : after.entries = (afterNormalizing seed b).update.applied b.entries) :
    ∃ start, seed.expand = .ok start ∧
      (withoutNormalizing (.ofWord start) after).answer =
        { status := .success, index := some i } := by
  obtain ⟨start, started, drawn⟩ := afterNormalizing_success sampled
  obtain ⟨nonempty, finite, expanded⟩ := start?_some started
  have weights := weights_positivePart finite
  refine ⟨start, expanded, ?_⟩
  rw [← length] at nonempty
  rcases drawn with ⟨rfl, written⟩ | ⟨rfl, written | ⟨kept, same⟩⟩
  · -- All mass is on the first entry, and every draw is below one.
    rw [written] at left
    rw [withoutNormalizing_weights start (weights.set_one 0) nonempty left]
    have first := Selection.select_set_one weights (Stream.uniformAt_lt_one start 0)
    rw [drawIndex, first]
  · rw [written] at left
    rw [withoutNormalizing_weights start weights.scaled nonempty left]
    rfl
  · rw [kept] at left
    have finiteAfter : after.entries.all Scalar.isFinite = true := left ▸ finite
    rw [withoutNormalizing_ofWord start nonempty finiteAfter, left, same]
    rfl

end Sampler

/-! ### Steps -/

theorem Sampler.afterNormalizing_unfilled (seed : Seed) (b : Buffer α) (value : Argument α) :
    (afterNormalizing seed b).update ≠ .fill value := by
  unfold afterNormalizing
  split
  · exact nofun
  dsimp only
  split
  · exact nofun
  split
  · exact nofun
  dsimp only
  split
  · exact nofun
  · exact nofun

/-- A buffer that holds what a sampling has left is sampled to the same index. -/
theorem Sampler.sample_again [OrderedScalar α] {b after : Buffer α} {seed : Seed} {i : Nat}
    (faithful : b.storage.Faithful)
    (sampled : (b.perform (.ok (afterNormalizing seed b))).1 =
      .ok { status := .success, index := some i })
    (length : after.length = (b.perform (.ok (afterNormalizing seed b))).2.length)
    (entries : after.entries = (b.perform (.ok (afterNormalizing seed b))).2.entries) :
    ∃ start, seed.expand = .ok start ∧
      (withoutNormalizing (.ofWord start) after).answer =
        { status := .success, index := some i } := by
  obtain ⟨answered, sameLength, left⟩ := Buffer.perform_held (Storage.hold_faithful faithful)
    (afterNormalizing_fits seed) (afterNormalizing_unfilled seed b) sampled
  exact withoutNormalizing_again answered (length.trans sameLength) (entries.trans left)

namespace Operation

variable (b : Buffer α)

theorem step_sampleAfterNormalizing (seed : Seed) :
    (sampleAfterNormalizing seed).step b =
      ((b.perform (.ok (Sampler.afterNormalizing seed b))).1.map .sample,
        (b.perform (.ok (Sampler.afterNormalizing seed b))).2) :=
  perform_answering Answer.sample b (.ok (Sampler.afterNormalizing seed b))

theorem step_sampleWithoutNormalizing (seed : Seed) :
    (sampleWithoutNormalizing seed).step b =
      (.ok (.sample (Sampler.withoutNormalizing seed b).answer), b) := by
  rw [step, plan, Buffer.perform, answering, Sampler.withoutNormalizing_keeps]
  rfl

theorem step_sample_again [OrderedScalar α] {b : Buffer α} {seed : Seed} {i : Nat}
    (faithful : b.storage.Faithful)
    (sampled : ((sampleAfterNormalizing seed).step b).1 =
      .ok (.sample { status := .success, index := some i })) :
    ∃ start, seed.expand = .ok start ∧
      ((sampleWithoutNormalizing (.ofWord start)).step ((sampleAfterNormalizing seed).step b).2).1 =
        .ok (.sample { status := .success, index := some i }) := by
  rw [step_sampleAfterNormalizing] at sampled ⊢
  obtain ⟨s, drawn, same⟩ := map_ok sampled
  obtain rfl := Answer.sample.inj same
  obtain ⟨start, expanded, again⟩ := Sampler.sample_again faithful drawn rfl rfl
  refine ⟨start, expanded, ?_⟩
  rw [step_sampleWithoutNormalizing, again]

end Operation

end SeededChoice
