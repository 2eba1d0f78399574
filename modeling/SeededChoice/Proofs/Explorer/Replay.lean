import SeededChoice.Decimal.Digits
import SeededChoice.Proofs.Double.Rounding
import SeededChoice.Proofs.Explorer.Stages
import SeededChoice.Proofs.Sampler.Replay
import SeededChoice.Settings.Value

/-!
# Replayed decisions

A decision records the expanded seed and the distribution that its index was drawn from, and the two
are enough to draw the index again.
-/

namespace SeededChoice

variable {α β : Type} [Scalar α] [OrderedScalar α]

theorem Settings.sampling_again {s : Settings α} {seed : Seed} {b left : Buffer α} {i : Nat}
    {start : UInt64} (fresh : b.IsFresh) (expanded : seed.expand = .ok start)
    (sampled : b.perform (.ok (s.sampling seed b)) =
      (.ok { status := .success, index := some i }, left)) :
    (Sampler.withoutNormalizing (.ofWord start) left).answer =
      { status := .success, index := some i } := by
  unfold sampling at sampled
  split at sampled
  · have faithful : b.storage.Faithful := fresh.1 ▸ rfl
    obtain ⟨word, same, again⟩ :=
      Sampler.sample_again faithful (congrArg Prod.fst sampled) rfl rfl
    obtain rfl := Except.ok.inj (expanded.symm.trans same)
    rwa [sampled] at again
  · have performed : b.perform (.ok (Sampler.withoutNormalizing seed b)) =
        (.ok (Sampler.withoutNormalizing seed b).answer, b) := by
      rw [Buffer.perform, Sampler.withoutNormalizing_keeps]
      rfl
    obtain ⟨answered, rfl⟩ := Prod.mk.inj (performed.symm.trans sampled)
    rw [Sampler.withoutNormalizing, Sampler.start?_ofWord expanded, ← Sampler.withoutNormalizing]
    exact Except.ok.inj answered

variable [Numeral α] [Coercion α] [Roster α]

/-- Sampling without normalizing, with the expanded seed and the distribution of a decision, selects
its index again. So does sampling what sampling after normalizing has left in a buffer that holds
every value as it is. -/
theorem Explorer.decisions_replay :
    (∀ (e : Explorer α) (q : Request α β) (o : Overrides α) (clock : Clock α) (d : Decision α β),
      (e.choose q o clock).1 = .ok d → ∀ storage,
      ((Operation.sampleWithoutNormalizing (.ofWord d.seed)).step
        { storage, entries := d.distribution }).1 =
          .ok (.sample { status := .success, index := some d.index })) ∧
    ∀ (b : Buffer α) (seed : Seed) (i : Nat), b.storage.Faithful →
      ((Operation.sampleAfterNormalizing seed).step b).1 =
        .ok (.sample { status := .success, index := some i }) →
      ∃ start, seed.expand = .ok start ∧
        ((Operation.sampleWithoutNormalizing (.ofWord start)).step
          ((Operation.sampleAfterNormalizing seed).step b).2).1 =
            .ok (.sample { status := .success, index := some i }) := by
  refine ⟨fun e q o clock d chosen storage => ?_, fun b seed i => Operation.step_sample_again⟩
  obtain ⟨s, r, -, decided⟩ := choose_ok chosen
  obtain ⟨member, n, b, left, -, -, distributed, sampled, entries, -, expanded, -⟩ :=
    Settings.decide_ok decided
  have fresh := (Settings.distribution_isFresh distributed).1
  have freshLeft : left.IsFresh := by
    have performed := fresh.perform (.ok (s.sampling q.seed b))
    rwa [sampled] at performed
  have same : Sampler.withoutNormalizing (.ofWord d.seed) { storage, entries := d.distribution } =
      Sampler.withoutNormalizing (.ofWord d.seed) left := by
    rw [entries, ← freshLeft.ofList_entries]
    rfl
  rw [Operation.step_sampleWithoutNormalizing, same,
    Settings.sampling_again fresh expanded sampled]

/-- Spreads half of the mass evenly, above a floor of a quarter. -/
def Explorer.halfGreedy : Explorer Float where
  settings := { Settings.standard with epsilon := 0.5, minimumUniform := 0.25 }
  log := { level := "none", diagnostic := false }

/-- Four actions, of which the second is the best. -/
def Request.ofFour : Request Float String where
  seed := .integer 7
  topAction := .integer 1
  actions := some ["a", "b", "c", "d"]

theorem Explorer.decisions_replay_of_four :
    (∃ d, (halfGreedy.choose .ofFour [] { timestamp := 0, duration := 0 }).1 = .ok d ∧ d.index = 2 ∧
      ((Operation.sampleWithoutNormalizing (.ofWord d.seed)).step
        { storage := .list, entries := d.distribution }).1 =
          .ok (.sample { status := .success, index := some 2 })) ∧
    ∃ start, Seed.expand (.integer 7) = .ok start ∧
      ((Operation.sampleWithoutNormalizing (.ofWord start)).step
        ((Operation.sampleAfterNormalizing (.integer 7)).step
          ({ storage := .list, entries := [-1.5, 3.0, 1.0] } : Buffer Float)).2).1 =
            .ok (.sample { status := .success, index := some 2 }) := by
  have found : (halfGreedy.choose .ofFour [] { timestamp := 0, duration := 0 }).1.toOption.map
      Decision.index = some 2 := by
    decide +kernel
  have sampled : ((Operation.sampleAfterNormalizing (.integer 7)).step
      ({ storage := .list, entries := [-1.5, 3.0, 1.0] } : Buffer Float)).1 =
        .ok (.sample { status := .success, index := some 2 }) := rfl
  cases chosen : (halfGreedy.choose .ofFour [] { timestamp := 0, duration := 0 }).1 with
  | error e =>
    rw [chosen] at found
    cases found
  | ok d =>
    rw [chosen] at found
    obtain index : d.index = 2 := Option.some.inj found
    have again := decisions_replay.1 halfGreedy .ofFour [] _ d chosen .list
    rw [index] at again
    obtain ⟨-, sampledAgain⟩ := decisions_replay (α := Float) (β := String)
    exact ⟨⟨d, rfl, index, again⟩, sampledAgain _ _ _ trivial sampled⟩

end SeededChoice
