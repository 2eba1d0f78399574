import SeededChoice.Floor
import SeededChoice.Generator
import SeededChoice.Sampler

/-!
# Results in fresh buffers

Each function makes its own buffer, or a copy of the caller's, carries out one operation on it and
turns a status other than success into an error. The caller's buffer is never written.
-/

namespace SeededChoice.Fresh

variable {α : Type} [Scalar α]

/-- Carries out a plan on a buffer; the error names the operation. -/
def perform (operation : String) (b : Buffer α) (plan : Except Error (Planned Status α)) :
    Except Error (Buffer α) := do
  let (status, after) := b.perform plan
  (← status).check operation
  return after

/-- A buffer of zeros of a requested length; a negative length counts as zero. -/
def requested (count : Argument α) : Except Error (Buffer α) := do
  Buffer.zeros (← count.toCount).toNat

def greedy (epsilon top count : Argument α) (clamp : Bool) : Except Error (Buffer α) := do
  let b ← requested count
  perform "generate_epsilon_greedy" b (Generator.greedy epsilon top clamp b.length)

def softmax (rate scores : Argument α) : Except Error (Buffer α) := do
  let b ← Buffer.zeros (← scores.length)
  perform "generate_softmax" b (Generator.softmax rate scores b.length)

def bag (votes count : Argument α) : Except Error (Buffer α) := do
  let b ← requested count
  perform "generate_bag" b (Generator.bag votes b.length)

def bagOfCounts (counts : Argument α) : Except Error (Buffer α) := do
  let b ← Buffer.zeros (← counts.length)
  perform "generate_bag_from_counts" b (Generator.bagOfCounts counts b.length)

/-- A copy in doubles. -/
def copy (b : Buffer α) : Buffer α := { b with storage := .grid .double }

def withFloor (b : Buffer α) (minimum : Argument α) (zeros : Bool) : Except Error (Buffer α) :=
  perform "enforce_minimum_probability" (copy b) (Floor.enforce minimum zeros (copy b))

/-- The answer of a sampling, if it has one. -/
def drawn {β : Type} (operation : String) (status : Status) (value : Option β) :
    Except Error β := do
  status.check operation
  match value with
  | some x => return x
  | none => throw (.outOfRange operation)

def index (seed : Seed) (b : Buffer α) (normalize : Bool) : Except Error Nat := do
  let plan :=
    if normalize then Sampler.afterNormalizing seed (copy b)
    else Sampler.withoutNormalizing seed (copy b)
  drawn "sample_index" plan.answer.status plan.answer.index

def value (seed : Seed) (b : Buffer α) (low high : Argument α) : Except Error α := do
  let plan ← Sampler.inRange seed low high (copy b)
  drawn "sample_value" plan.answer.status plan.answer.value

end SeededChoice.Fresh
