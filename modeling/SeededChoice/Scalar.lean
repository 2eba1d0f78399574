/-!
# Scalars

`Scalar` is the arithmetic that the computations of this library are written over. Doubles are one
scalar; a law that holds of exact arithmetic, or of every rounding, is stated of another.
-/

namespace SeededChoice

/-- Numbers with a not-a-number value, an exponential and conversions to and from integers. Order
and equality are those of the number format, so a not-a-number value is related to nothing. -/
class Scalar (α : Type) extends
    Add α, Sub α, Mul α, Div α, Neg α, Zero α, One α, LT α, LE α, BEq α where
  decLt : DecidableLT α
  decLe : DecidableLE α
  nan : α
  ofNat : Nat → α
  /-- The nearest scalar to an integer, or nothing where that is no finite scalar. -/
  ofInt? : Int → Option α
  /-- The integer part, toward zero, of a finite scalar. -/
  truncate? : α → Option Int
  isFinite : α → Bool
  exp : α → α
  /-- The neighbour of the first scalar on the side of the second. -/
  stepToward : α → α → α
  /-- The nearest scalar that single precision holds. -/
  toSingle : α → α

attribute [reducible, instance] Scalar.decLt Scalar.decLe

namespace Scalar

variable {α : Type} [Scalar α]

def isNaN (x : α) : Bool := !(x == x)

def isPositiveInfinity (x : α) : Bool := !isFinite x && decide (0 < x)

def isNegativeInfinity (x : α) : Bool := !isFinite x && decide (x < 0)

/-- A negative weight counts as no weight. -/
def positivePart (x : α) : α := if x < 0 then 0 else x

/-- A finite number between zero and one. -/
def inUnitInterval (x : α) : Bool := isFinite x && decide (0 ≤ x) && decide (x ≤ 1)

/-- The first of the largest entries among `first` and `rest`. -/
def largest (first : α) (rest : List α) : α :=
  rest.foldl (fun best x => if best < x then x else best) first

/-- The first of the smallest entries among `first` and `rest`. -/
def smallest (first : α) (rest : List α) : α :=
  rest.foldl (fun best x => if x < best then x else best) first

/-- An integer of 64 bits, sign included. -/
def isWord (n : Int) : Bool :=
  decide (Int64.minValue.toInt ≤ n) && decide (n ≤ Int64.maxValue.toInt)

end Scalar

end SeededChoice
