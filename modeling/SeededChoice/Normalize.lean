import SeededChoice.Buffer
import SeededChoice.Scalar.Sum

/-!
# Normalization

A buffer is scaled so that it sums to one. A total that is zero, negative or not finite scales
nothing, and neither does a total of exactly one.
-/

namespace SeededChoice.Normalize

variable {α : Type} [Scalar α]

/-- A total that can be scaled to one, and is not one yet. -/
def isScalable (total : α) : Bool :=
  Scalar.isFinite total && !decide (total ≤ 0) && total != 1

def scaled (values : List α) : List α :=
  let total := Scalar.sum values
  if isScalable total then values.map (· / total) else values

/-- Scales a buffer; the answer is its total before. -/
def plan (b : Buffer α) : Planned α α :=
  let total := Scalar.sum b.entries
  { answer := total
    update := if isScalable total then .assign (b.entries.map (· / total)) else .keep }

end SeededChoice.Normalize
