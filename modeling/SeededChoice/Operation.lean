import SeededChoice.Floor
import SeededChoice.Generator
import SeededChoice.Sampler

/-!
# Operations on a buffer

Everything that a caller can do to a buffer, as one type. `plan` says what an operation answers and
writes, `step` carries it out, and `run` carries out a list; an operation that fails stops nothing.
-/

namespace SeededChoice

inductive Operation (α : Type) where
  | greedy (epsilon top : Argument α) (clamp : Bool)
  | softmax (rate scores : Argument α)
  | bag (votes : Argument α)
  | bagOfCounts (counts : Argument α)
  | floor (minimum : Argument α) (zeros : Bool)
  | normalize
  | sampleAfterNormalizing (seed : Seed)
  | sampleWithoutNormalizing (seed : Seed)
  | sampleInRange (seed : Seed) (low high : Argument α)
  | fill (value : Argument α)

inductive Answer (α : Type) where
  | status (s : Status)
  | total (x : α)
  | sample (s : Sample)
  | rangeSample (s : RangeSample α)
  | filled
  deriving DecidableEq

namespace Operation

variable {α : Type} [Scalar α]

/-- The same plan under another name for its answer. -/
def answering {ρ σ : Type} (f : ρ → σ) (p : Planned ρ α) : Planned σ α :=
  { answer := f p.answer, update := p.update }

/-- A plan is carried out in the same way under another name for its answer. -/
theorem perform_answering {ρ σ : Type} (f : ρ → σ) (b : Buffer α)
    (plan : Except Error (Planned ρ α)) :
    b.perform (plan.map (answering f)) = ((b.perform plan).1.map f, (b.perform plan).2) := by
  cases plan with
  | error e => rfl
  | ok p =>
    show ((b.update p.update).1.map _, _) = (((b.update p.update).1.map _).map f, _)
    cases (b.update p.update).1 with
    | error e => rfl
    | ok done => rfl

def plan (op : Operation α) (b : Buffer α) : Except Error (Planned (Answer α) α) :=
  match op with
  | greedy epsilon top clamp =>
    (Generator.greedy epsilon top clamp b.length).map (answering .status)
  | softmax rate scores => (Generator.softmax rate scores b.length).map (answering .status)
  | bag votes => (Generator.bag votes b.length).map (answering .status)
  | bagOfCounts counts => (Generator.bagOfCounts counts b.length).map (answering .status)
  | floor minimum zeros => (Floor.enforce minimum zeros b).map (answering .status)
  | normalize => .ok (answering .total (Normalize.plan b))
  | sampleAfterNormalizing seed => .ok (answering .sample (Sampler.afterNormalizing seed b))
  | sampleWithoutNormalizing seed => .ok (answering .sample (Sampler.withoutNormalizing seed b))
  | sampleInRange seed low high =>
    (Sampler.inRange seed low high b).map (answering .rangeSample)
  | fill value => .ok { answer := .filled, update := .fill value }

/-- Carries out one operation: its answer or error, and the buffer after it. -/
def step (op : Operation α) (b : Buffer α) : Except Error (Answer α) × Buffer α :=
  b.perform (op.plan b)

def run (b : Buffer α) (ops : List (Operation α)) : Buffer α :=
  ops.foldl (fun b op => (op.step b).2) b

end Operation

end SeededChoice
