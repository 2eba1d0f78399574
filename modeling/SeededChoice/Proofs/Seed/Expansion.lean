import SeededChoice.Decimal.Digits
import SeededChoice.Proofs.Explorer.Replay
import SeededChoice.Proofs.Seed.Numbers
import SeededChoice.Proofs.Stream.Run

/-!
# Expanded seeds

Streams, samplers and explorers look at a seed through its expansion only, so the word that a record
holds serves as well as the seed that a caller gave. A seed without an expansion is refused by every
sampler, and nothing is written.
-/

namespace SeededChoice

variable {α β : Type} [Scalar α] {seed other : Seed} {start : UInt64}

/-! ### Streams -/

section
variable (same : other.expand = seed.expand)
include same

omit [Scalar α] in
theorem Stream.ofSeed_congr : (ofSeed other : Except Error (Stream α)) = ofSeed seed := by
  rw [ofSeed, ofSeed, same]

theorem Stream.uniformOf_congr [Numeral α] (n : Argument α) :
    uniformOf other n = uniformOf seed n := by
  rw [uniformOf, uniformOf, same]

/-! ### Samplers -/

namespace Sampler

variable (b : Buffer α)

theorem start?_congr : start? other b = start? seed b := by
  rw [start?, start?, same]

theorem afterNormalizing_congr : afterNormalizing other b = afterNormalizing seed b := by
  rw [afterNormalizing, afterNormalizing, start?_congr same]

theorem withoutNormalizing_congr : withoutNormalizing other b = withoutNormalizing seed b := by
  rw [withoutNormalizing, withoutNormalizing, start?_congr same]

theorem inRange_congr (low high : Argument α) :
    inRange other low high b = inRange seed low high b := by
  simp only [inRange, start?_congr same]

end Sampler

namespace Operation

variable (b : Buffer α)

theorem step_sampleAfterNormalizing_congr :
    (sampleAfterNormalizing other).step b = (sampleAfterNormalizing seed).step b := by
  rw [step, step, plan, plan, Sampler.afterNormalizing_congr same]

theorem step_sampleWithoutNormalizing_congr :
    (sampleWithoutNormalizing other).step b = (sampleWithoutNormalizing seed).step b := by
  rw [step, step, plan, plan, Sampler.withoutNormalizing_congr same]

theorem step_sampleInRange_congr (low high : Argument α) :
    (sampleInRange other low high).step b = (sampleInRange seed low high).step b := by
  rw [step, step, plan, plan, Sampler.inRange_congr same]

end Operation

/-! ### Decisions -/

/-- A decision draws under its seed and records the expansion; it asks for the seed nowhere else. -/
theorem Settings.decideBy_congr [Roster α] (s : Settings α) (member : Roster.Member α)
    (digest : String) (q : Request α β) (clock : Clock α) :
    s.decideBy member digest { q with seed := other } clock =
      s.decideBy member digest { q with seed } clock := by
  have sized : { q with seed := other }.checkedSize = { q with seed }.checkedSize := rfl
  have distributed (n : Nat) : s.distribution member { q with seed := other } n =
      s.distribution member { q with seed } n := rfl
  simp only [decideBy, sized, distributed, same, Sampler.afterNormalizing_congr same,
    Sampler.withoutNormalizing_congr same]

theorem Explorer.choose_seed_congr [Numeral α] [Coercion α] [Roster α] (e : Explorer α)
    (q : Request α β) (o : Overrides α) (clock : Clock α) :
    e.choose { q with seed := other } o clock = e.choose { q with seed } o clock := by
  simp only [choose, decide, Settings.decide, Settings.decideBy_congr same]

end

/-! ### Seeds without an expansion -/

namespace Operation

variable {error : Error} (rejected : seed.expand = .error error) (b : Buffer α)
include rejected

theorem step_sampleAfterNormalizing_rejected :
    (sampleAfterNormalizing seed).step b = (.ok (.sample { status := .badRange }), b) := by
  rw [step, plan, Sampler.afterNormalizing, Sampler.start?_error rejected]
  rfl

theorem step_sampleWithoutNormalizing_rejected :
    (sampleWithoutNormalizing seed).step b = (.ok (.sample { status := .badRange }), b) := by
  rw [step, plan, Sampler.withoutNormalizing, Sampler.start?_error rejected]
  rfl

/-- Only an end of the range that cannot be read is found fault with before the seed. -/
theorem step_sampleInRange_rejected (low high : Argument α) :
    (sampleInRange seed low high).step b =
      ((do
        let _ ← low.toReal
        let _ ← high.toReal
        return .rangeSample { status := .badRange }), b) := by
  rw [step, plan, Sampler.inRange]
  cases low.toReal with
  | error e => rfl
  | ok l =>
    cases high.toReal with
    | error e => rfl
    | ok h =>
      simp only [Sampler.start?_error rejected, bind, Except.bind]
      split
      · rfl
      · rfl

end Operation

/-- The number of a seed, itself or its hash, fits a word, and that word is its expansion. An
expansion expands to itself, so that expanding it once more, as for the draws of a sampler, changes
nothing. It takes the place of its seed everywhere: the draws by number, a stream through any
moves, the samplers with all that they write, and whole decisions with their logs are the same. A
seed that has none is refused by each sampler, whatever the buffer, and the buffer stays as it
is. -/
theorem Seed.expansion_in_place [Numeral α] [Coercion α] [Roster α] (seed : Seed) :
    (∀ start, seed.expand = .ok start →
      seed.Expands start.toNat ∧ start.toNat < 2 ^ 64 ∧ (ofWord start).expand = .ok start ∧
      (∀ n : Nat, Stream.uniformOf (ofWord start) (.integer n : Argument α) =
        .ok (Stream.uniformAt start n)) ∧
      (Stream.ofSeed (ofWord start) : Except Error (Stream α)) = .ok (.ofWord start) ∧
      (∀ n : Argument α, Stream.uniformOf (ofWord start) n = Stream.uniformOf seed n) ∧
      (∀ moves, (Stream.ofSeed (ofWord start)).map (fun s : Stream α => s.run moves) =
        (Stream.ofSeed seed).map fun s => s.run moves) ∧
      (∀ b : Buffer α,
        (Operation.sampleAfterNormalizing (ofWord start)).step b =
          (Operation.sampleAfterNormalizing seed).step b ∧
        (Operation.sampleWithoutNormalizing (ofWord start)).step b =
          (Operation.sampleWithoutNormalizing seed).step b ∧
        ∀ low high, (Operation.sampleInRange (ofWord start) low high).step b =
          (Operation.sampleInRange seed low high).step b) ∧
      ∀ (e : Explorer α) (q : Request α β) (o : Overrides α) (clock : Clock α),
        e.choose { q with seed := ofWord start } o clock = e.choose { q with seed } o clock) ∧
    ∀ error, seed.expand = .error error → ∀ b : Buffer α,
      (Operation.sampleAfterNormalizing seed).step b =
        (.ok (.sample { status := .badRange }), b) ∧
      (Operation.sampleWithoutNormalizing seed).step b =
        (.ok (.sample { status := .badRange }), b) ∧
      ∀ low high, (Operation.sampleInRange seed low high).step b =
        ((do
          let _ ← low.toReal
          let _ ← high.toReal
          return .rangeSample { status := .badRange }), b) := by
  constructor
  · intro start expanded
    have same : (ofWord start).expand = seed.expand := (expand_ofWord start).trans expanded.symm
    have expands := Expands.of_expand expanded
    refine ⟨expands, expands.lt, expand_ofWord start,
      Stream.uniformOf_natural (expand_ofWord start), ?_, Stream.uniformOf_congr same,
      fun moves => ?_, fun b => ⟨?_, ?_, ?_⟩, Explorer.choose_seed_congr same⟩
    · rw [Stream.ofSeed, expand_ofWord]
      rfl
    · rw [Stream.ofSeed_congr same]
    · exact Operation.step_sampleAfterNormalizing_congr same b
    · exact Operation.step_sampleWithoutNormalizing_congr same b
    · exact Operation.step_sampleInRange_congr same b
  · intro error rejected b
    exact ⟨Operation.step_sampleAfterNormalizing_rejected rejected b,
      Operation.step_sampleWithoutNormalizing_rejected rejected b,
      Operation.step_sampleInRange_rejected rejected b⟩

/-- A text that stands for its hash, and a flag that stands for nothing. -/
theorem Seed.expansion_in_place_of_text :
    (∃ start, (ofString "event-17").expand = .ok start ∧
      Explorer.halfGreedy.choose { Request.ofFour with seed := ofWord start } []
          { timestamp := 0, duration := 0 } =
        Explorer.halfGreedy.choose { Request.ofFour with seed := ofString "event-17" } []
          { timestamp := 0, duration := 0 }) ∧
    boolean.expand = .error .booleanSeed ∧
    (Operation.sampleAfterNormalizing boolean).step (.ofList [0.5, 1.5] : Buffer Float) =
      (.ok (.sample { status := .badRange }), .ofList [0.5, 1.5]) := by
  have hashed : ∃ start, (ofString "event-17").expand = .ok start := ⟨_, rfl⟩
  obtain ⟨start, hashed⟩ := hashed
  obtain ⟨-, -, -, -, -, -, -, -, decided⟩ :=
    (expansion_in_place (α := Float) (β := String) (ofString "event-17")).1 start hashed
  have refused : boolean.expand = .error .booleanSeed := rfl
  obtain ⟨sampled, -⟩ :=
    (expansion_in_place (α := Float) (β := String) boolean).2 _ refused (.ofList [0.5, 1.5])
  exact ⟨⟨start, hashed, decided Explorer.halfGreedy .ofFour [] _⟩, refused, sampled⟩

end SeededChoice
