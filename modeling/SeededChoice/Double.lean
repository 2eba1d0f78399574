import SeededChoice.Rounding
import SeededChoice.Scalar

/-!
# Doubles

A double is taken apart into a sign, a whole number and a power of two. Integer parts,
single-precision rounding and neighbours are computed exactly from these parts; the rest of the
arithmetic is that of `Float`.
-/

namespace SeededChoice.Double

/-- What the bits of a double say. -/
inductive Parts where
  | nan
  | infinite (negative : Bool)
  /-- `± m · 2 ^ e`. -/
  | finite (negative : Bool) (m : Nat) (e : Int)
  deriving DecidableEq, Repr

def signBit : Nat := 0x8000000000000000

/-- The weight that the leading bit of a normal double has beside its fraction. -/
def leadingBit : Nat := 0x10000000000000

def parts (x : Float) : Parts :=
  let bits := x.toBits.toNat
  let negative := decide (signBit ≤ bits)
  let biased : Nat := bits / leadingBit % 2048
  let fraction := bits % leadingBit
  if biased = 2047 then (if fraction = 0 then .infinite negative else .nan)
  else if biased = 0 then .finite negative fraction (-1074)
  else .finite negative (leadingBit + fraction) ((biased : Int) - 1075)

/-- The double with this sign, biased exponent and fraction. -/
def assemble (negative : Bool) (biased fraction : Nat) : Float :=
  Float.ofBits (UInt64.ofNat ((if negative then signBit else 0) + biased * leadingBit + fraction))

def nan : Float := 0.0 / 0.0

def infinity (negative : Bool) : Float := assemble negative 2047 0

/-- `± m · 2 ^ e`, for an `m` of at most 53 bits whose leading bit has a normal exponent. -/
def scaled (negative : Bool) (m : Nat) (e : Int) : Float :=
  if m = 0 then assemble negative 0 0
  else
    let top := m.log2
    assemble negative (e + top + 1023).toNat ((m - Nat.pow 2 top) * Nat.pow 2 (52 - top))

/-- The exact numerator and denominator of `m · 2 ^ e`. -/
def ratio (m : Nat) (e : Int) : Nat × Nat :=
  if 0 ≤ e then (m * Nat.pow 2 e.toNat, 1) else (m, Nat.pow 2 (-e).toNat)

/-! ### Integers -/

/-- The double nearest to a natural number; infinite from `2 ^ 1024 - 2 ^ 970` on. -/
def ofNat (n : Nat) : Float := Float.ofScientific n false 0

def ofInt (n : Int) : Float := if n < 0 then -ofNat n.natAbs else ofNat n.natAbs

def ofInt? (n : Int) : Option Float :=
  let x := ofInt n
  if x.isFinite then some x else none

def truncate? (x : Float) : Option Int :=
  match parts x with
  | .finite negative m e =>
    let (num, den) := ratio m e
    some (if negative then -(num / den : Nat) else (num / den : Nat))
  | _ => none

/-! ### Single precision -/

/-- A single has 24 bits, none worth less than `2 ^ -149`, and is less than `2 ^ 128`. -/
def toSingle (x : Float) : Float :=
  match parts x with
  | .finite negative m e =>
    let unit := max (e + m.log2 - 23) (-149)
    if unit ≤ e then (if (ratio m e).1 < Nat.pow 2 128 then x else infinity negative)
    else
      let rounded := roundDiv m (Nat.pow 2 (unit - e).toNat)
      if (ratio rounded unit).1 < Nat.pow 2 128 then scaled negative rounded unit
      else infinity negative
  | _ => x

/-! ### Neighbours -/

/-- The neighbour of `x` on the side of `y`; `y` itself when they are equal. -/
def stepToward (x y : Float) : Float :=
  if x != x || y != y then nan
  else if x == y then y
  else if x == 0.0 then assemble (y < 0.0) 0 1
  else if (x < y) == (0.0 < x) then Float.ofBits (x.toBits + 1)
  else Float.ofBits (x.toBits - 1)

end SeededChoice.Double

namespace SeededChoice

/-- The exponential of doubles, of which no more is known than where a law asks for it. -/
class DoubleExponential where
  exp : Float → Float

instance : DoubleExponential := ⟨Float.exp⟩

instance [DoubleExponential] : Scalar Float where
  zero := 0.0
  one := 1.0
  decLt := inferInstance
  decLe := inferInstance
  nan := Double.nan
  ofNat := Double.ofNat
  ofInt? := Double.ofInt?
  truncate? := Double.truncate?
  isFinite := Float.isFinite
  exp := DoubleExponential.exp
  stepToward := Double.stepToward
  toSingle := Double.toSingle

end SeededChoice
