import SeededChoice.Decimal.Figure
import SeededChoice.Decimal.Layout
import SeededChoice.Error
import SeededChoice.Scalar

/-!
# Loosely typed arguments

Callers pass integers, reals, nothing or nested lists, and every operation reads them as it needs:
as a real, an index, a count or a row of weights. Each reading refuses what it cannot read.
-/

namespace SeededChoice

inductive Argument (α : Type) where
  | absent
  | integer (n : Int)
  | real (x : α)
  | list (items : List (Argument α))

instance {α : Type} : Inhabited (Argument α) := ⟨.absent⟩

namespace Argument

variable {α : Type} [Scalar α]

def isAbsent : Argument α → Bool
  | absent => true
  | _ => false

def ofInteger (n : Int) : Except Error α :=
  match Scalar.ofInt? n with
  | some x => .ok x
  | none => .error .tooLarge

def toReal : Argument α → Except Error α
  | integer n => ofInteger n
  | real x => .ok x
  | absent | list _ => .error .wrongKind

/-- The argument as an exact integer; a real is none, even a whole one. -/
def toIndex : Argument α → Except Error Int
  | integer n => .ok n
  | absent | real _ | list _ => .error .wrongKind

/-- The argument as a count, which drops the fraction of a real. -/
def toCount : Argument α → Except Error Int
  | integer n => .ok n
  | real x =>
    match Scalar.truncate? x with
    | some n => .ok n
    | none => .error (if Scalar.isNaN x then .noInteger else .tooLarge)
  | absent | list _ => .error .wrongKind

def toItems : Argument α → Except Error (List (Argument α))
  | list items => .ok items
  | absent | integer _ | real _ => .error .wrongKind

/-- The length of a list, not counting what is nested in it. -/
def length (a : Argument α) : Except Error Nat := a.toItems.map List.length

def toIndexes (a : Argument α) : Except Error (List Int) := do
  (← a.toItems).mapM toIndex

/-! ### Weights -/

mutual

/-- The lengths of a nested list, outermost first, if all its rows have one shape. -/
def shape? : Argument α → Option (List Nat)
  | list items =>
    match shapes? items with
    | none => none
    | some [] => some [0]
    | some (s :: rest) => if rest.all (· == s) then some (items.length :: s) else none
  | absent | integer _ | real _ => some []

def shapes? : List (Argument α) → Option (List (List Nat))
  | [] => some []
  | a :: rest =>
    match shape? a, shapes? rest with
    | some s, some ss => some (s :: ss)
    | _, _ => none

end

mutual

/-- What a nested list holds, in row order. -/
def leaves : Argument α → List (Argument α)
  | list items => leavesOfAll items
  | a => [a]

def leavesOfAll : List (Argument α) → List (Argument α)
  | [] => []
  | a :: rest => leaves a ++ leavesOfAll rest

end

/-- The argument as a weight; an absent one is not a number. -/
def toWeight : Argument α → Except Error α
  | absent => .ok Scalar.nan
  | integer n => ofInteger n
  | real x => .ok x
  | list _ => .error .wrongKind

/-- What a nested list holds, in row order, unless its rows differ in shape. -/
def toLeaves (a : Argument α) : Except Error (List (Argument α)) :=
  if a.shape?.isSome then .ok a.leaves else .error .ragged

/-- The argument as a row of weights: nested rows of one shape are joined. -/
def toWeights (a : Argument α) : Except Error (List α) := do
  (← a.toLeaves).mapM toWeight

/-! ### Counters -/

def messageLayout : Layout where
  leastInPlace := -4
  exponentWidth := 2
  nan := "nan"
  infinity := "inf"
  negativeInfinity := "-inf"

/-- The argument as an integer that may be negative: how a number below zero is reported comes
first. What is left of the reals has no exact count, which is said by `none`. -/
def toCounter? [Numeral α] (negative : String → Error) :
    Argument α → Except Error (Option Nat)
  | integer n => if n < 0 then .error (negative (toString n)) else .ok (some n.toNat)
  | real x =>
    if x < 0 then .error (negative (messageLayout.write (Numeral.shortest x))) else .ok none
  | absent | list _ => .error .wrongKind

end Argument

end SeededChoice
