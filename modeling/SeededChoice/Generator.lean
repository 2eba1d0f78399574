import SeededChoice.Buffer
import SeededChoice.Scalar.Sum

/-!
# Generators

Each generator plans a distribution over the actions of a buffer of length `n`: a greedy one, one
by exponential weights, and two by votes. All checks come before the first write.
-/

namespace SeededChoice.Generator

variable {α : Type} [Scalar α]

def uniformShare (n : Nat) : α := 1 / Scalar.ofNat n

/-! ### Epsilon-greedy -/

/-- `epsilon` spread evenly, and the rest on the top action. -/
def greedyValues (epsilon : α) (top n : Nat) : List α :=
  (List.replicate n (epsilon / Scalar.ofNat n)).modify top (· + (1 - epsilon))

/-- The top action that counts: one past the end may be clamped to the last. -/
def resolveTop (top : Int) (clamp : Bool) (n : Nat) : Option Nat :=
  if top < 0 then none
  else if top < n then some top.toNat
  else if clamp then some (n - 1)
  else none

def greedy (epsilon top : Argument α) (clamp : Bool) (n : Nat) :
    Except Error (Planned Status α) := do
  let epsilon ← epsilon.toReal
  if n = 0 || !Scalar.inUnitInterval epsilon then return .refuse .badRange
  else
    match resolveTop (← top.toIndex) clamp n with
    | none => return .refuse .badRange
    | some top => return .accept (.assign (greedyValues epsilon top n))

/-! ### Softmax -/

/-- The score that every other one is measured from: the one of largest weight. -/
def referenceScore (rate first : α) (rest : List α) : α :=
  if 0 < rate then Scalar.largest first rest else Scalar.smallest first rest

def softWeight (rate reference score : α) : α := Scalar.exp (rate * (score - reference))

/-- The scores at the infinity that the rate favours. -/
def isDominant (rate score : α) : Bool :=
  if 0 < rate then Scalar.isPositiveInfinity score else Scalar.isNegativeInfinity score

/-- All the mass shared by the marked actions. -/
def shareAmong (marked : List Bool) : List α :=
  let count := Scalar.ofNat (marked.countP id)
  marked.map fun m => (if m then 1 else 0) / count

/-- The distribution of scores that are numbers, under a finite rate other than zero. Weights that
cannot be normalized give every action the same share. -/
def softmaxUpdate (rate : α) (scores : List α) (n : Nat) : Update α :=
  match scores with
  | [] => .keep
  | first :: rest =>
    let dominant := scores.map (isDominant rate)
    if dominant.any id then .assign (shareAmong dominant)
    else
      let weights := scores.map (softWeight rate (referenceScore rate first rest))
      let total := Scalar.sum weights
      if !Scalar.isFinite total || decide (total ≤ 0) || !weights.all Scalar.isFinite then
        .fill (.real (uniformShare n))
      else .assign (weights.map (· / total))

def softmax (rate scores : Argument α) (n : Nat) : Except Error (Planned Status α) := do
  let scores ← scores.toWeights
  if scores.isEmpty || n = 0 then return .refuse .badRange
  else if scores.length ≠ n then return .refuse .sizeMismatch
  else
    let rate ← rate.toReal
    if !Scalar.isFinite rate || scores.any Scalar.isNaN then return .refuse .badRange
    else if rate == 0 then return .accept (.fill (.real (uniformShare n)))
    else return .accept (softmaxUpdate rate scores n)

/-! ### Votes -/

def tally (votes : List Int) (n : Nat) : List Nat :=
  (List.range n).map fun i => votes.count (Int.ofNat i)

/-- One vote for each model of the bag. -/
def bag (votes : Argument α) (n : Nat) : Except Error (Planned Status α) := do
  let votes ← votes.toIndexes
  if votes.isEmpty || n = 0 then return .refuse .badRange
  else if votes.any (· < 0) then return .refuse .badRange
  else if votes.any ((n : Int) ≤ ·) then return .refuse .sizeMismatch
  else
    let total := Scalar.ofNat votes.length
    return .accept (.assign ((tally votes n).map fun count => Scalar.ofNat count / total))

/-- A count of votes for each action; no votes at all give every action the same share. -/
def bagOfCounts (counts : Argument α) (n : Nat) : Except Error (Planned Status α) := do
  let counts ← counts.toWeights
  if counts.isEmpty || n = 0 then return .refuse .badRange
  else if counts.length ≠ n then return .refuse .sizeMismatch
  else if !counts.all Scalar.isFinite || counts.any (fun x => decide (x < 0)) then
    return .refuse .badRange
  else
    let total := Scalar.sum counts
    if total == 0 then return .accept (.fill (.real (uniformShare n)))
    else return .accept (.assign (counts.map (· / total)))

end SeededChoice.Generator
