import SeededChoice.Normalize
import SeededChoice.Sampler.Selection
import SeededChoice.Stream

/-!
# Samplers

Three ways to draw from a buffer under a seed: an index after normalizing, an index from weights
that are trusted to sum to one, and a real number from a range cut into one bucket per weight.
-/

namespace SeededChoice

/-- A drawn index, or the reason why there is none. -/
structure Sample where
  status : Status
  index : Option Nat := none
  deriving DecidableEq, Repr

/-- A drawn number with its bucket, or the reason why there is none. -/
structure RangeSample (α : Type) where
  status : Status
  value : Option α := none
  bucket : Option Nat := none
  deriving DecidableEq

namespace Sampler

variable {α : Type} [Scalar α]

def refused : Planned Sample α := { answer := { status := .badRange } }

def refusedRange : Planned (RangeSample α) α := { answer := { status := .badRange } }

/-- The index that draw zero of a stream selects. -/
def drawIndex (start : UInt64) (weights : List α) : Sample :=
  { status := .success, index := some (Selection.select weights (Stream.uniformAt start 0)) }

/-- The word that starts the draws, for a buffer with finite entries and a valid seed. -/
def start? (seed : Seed) (b : Buffer α) : Option UInt64 :=
  if b.length = 0 || !b.entries.all Scalar.isFinite then none else seed.expand.toOption

/-- Draws an index after normalizing. Without any positive weight the first action is taken for the
best. Weights that need no change are not written. -/
def afterNormalizing (seed : Seed) (b : Buffer α) : Planned Sample α :=
  match start? seed b with
  | none => refused
  | some start =>
    let weights := b.entries.map Scalar.positivePart
    let total := Scalar.sum weights
    if !Scalar.isFinite total then refused
    else if total == 0 then
      { answer := { status := .success, index := some 0 }, update := .assign (weights.set 0 1) }
    else
      let scaled := Normalize.scaled weights
      let changed := total != 1 || b.entries.any fun x => decide (x < 0)
      { answer := drawIndex start scaled
        update := if changed then .assign scaled else .keep }

/-- Draws an index from weights as they are, and never writes. -/
def withoutNormalizing (seed : Seed) (b : Buffer α) : Planned Sample α :=
  match start? seed b with
  | none => refused
  | some start => { answer := drawIndex start (b.entries.map Scalar.positivePart) }

/-! ### Ranges -/

/-- A range with finite ends, the lower one below the upper one. -/
def isRange (low high : α) : Bool :=
  Scalar.isFinite low && Scalar.isFinite high && !decide (high ≤ low)

/-- The number at an offset inside a bucket. Rounding up to the end of the range is taken back. -/
def place (low high : α) (buckets bucket : Nat) (offset : α) : α :=
  let width := (high - low) / Scalar.ofNat buckets
  let value := low + (Scalar.ofNat bucket + offset) * width
  if high ≤ value then Scalar.stepToward high low else value

/-- The weights of the buckets after normalizing, all the same when none is positive, unless their
total is not finite. -/
def bucketWeights? (b : Buffer α) : Option (List α) :=
  let weights := b.entries.map Scalar.positivePart
  let total := Scalar.sum weights
  if !Scalar.isFinite total then none
  else if total == 0 then some (weights.map fun _ => 1 / Scalar.ofNat b.length)
  else some (Normalize.scaled weights)

/-- Draws a number from a range: draw zero selects a bucket, draw one a place inside it. -/
def inRange (seed : Seed) (low high : Argument α) (b : Buffer α) :
    Except Error (Planned (RangeSample α) α) := do
  let low ← low.toReal
  let high ← high.toReal
  if !isRange low high then return refusedRange
  else
    match start? seed b, bucketWeights? b with
    | some start, some weights =>
      let (first, stream) := (Stream.ofWord start : Stream α).next
      let (second, _) := stream.next
      let bucket := Selection.select weights (Stream.toUnit first)
      return {
        answer := {
          status := .success
          value := some (place low high b.length bucket (Stream.toUnit second))
          bucket := some bucket }
        update := .assign weights }
    | _, _ => return refusedRange

end Sampler

end SeededChoice
