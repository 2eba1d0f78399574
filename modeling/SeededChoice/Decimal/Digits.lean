import SeededChoice.Decimal.Figure
import SeededChoice.Double

/-!
# Decimal digits of doubles

Digits are chosen by exact arithmetic on `m · 2 ^ e`. `shortest` takes the first decimal grid, from
one digit on, with a point that reads back as the double; `significant` and `places` round the exact
value to a grid, a half to the even neighbour.
-/

namespace SeededChoice.Double

def digitCount (n : Nat) : Nat := (Nat.toDigits 10 n).length

/-- The `k` with `10 ^ k ≤ num / den < 10 ^ (k + 1)`, for a positive quotient. -/
def decimalExponent (num den : Nat) : Int :=
  if den ≤ num then digitCount (num / den) - 1
  else -(digitCount ((den + num - 1) / num - 1) : Int)

/-- Numerator and denominator of `num / den` counted in units of `10 ^ unit`. -/
def inUnits (num den : Nat) (unit : Int) : Nat × Nat :=
  if 0 ≤ unit then (num, den * Nat.pow 10 unit.toNat) else (num * Nat.pow 10 (-unit).toNat, den)

/-- A count of units that reached the next power of ten, written with one digit less. -/
def carry (count digits : Nat) (unit : Int) : Nat × Int :=
  if digits = Nat.pow 10 count then (Nat.pow 10 (count - 1), unit + 1) else (digits, unit)

/-- The value rounded to `count` digits, and the unit of the last one. -/
def significant (count num den : Nat) : Nat × Int :=
  let unit := decimalExponent num den - count + 1
  let (n, d) := inUnits num den unit
  carry count (roundDiv n d) unit

/-! ### Shortest digits -/

/-- Whether `digits · 10 ^ unit` rounds to the double `m · 2 ^ e`. The double below is half as
far as the one above where `m` is its leading bit alone; midpoints belong to it if `m` is even. -/
def readsBack (m : Nat) (e : Int) (digits : Nat) (unit : Int) : Bool :=
  let below := if m = leadingBit ∧ -1074 < e then 1 else 2
  let (low, den) := ratio (4 * m - below) (e - 2)
  let (high, _) := ratio (4 * m + 2) (e - 2)
  let (lowUnits, d) := inUnits low den unit
  let (highUnits, _) := inUnits high den unit
  if m % 2 = 0 then decide (lowUnits ≤ digits * d ∧ digits * d ≤ highUnits)
  else decide (lowUnits < digits * d ∧ digits * d < highUnits)

/-- Searches the grids of `count`, `count + 1`, … digits; the first argument bounds their number.
On each grid the nearest point comes first, then its neighbours around the value. -/
def shortestFrom : Nat → Nat → Nat → Int → Nat × Int
  | grids + 1, count, m, e =>
    let (num, den) := ratio m e
    let unit := decimalExponent num den - count + 1
    let (n, d) := inUnits num den unit
    let nearest := roundDiv n d
    if readsBack m e nearest unit then carry count nearest unit
    else if readsBack m e (n / d) unit then carry count (n / d) unit
    else if readsBack m e (n / d + 1) unit then carry count (n / d + 1) unit
    else shortestFrom grids (count + 1) m e
  | 0, count, m, e =>
    let (num, den) := ratio m e
    significant count num den

/-! ### Figures -/

def shortest (x : Float) : Figure :=
  match parts x with
  | .nan => .nan
  | .infinite negative => .infinite negative
  | .finite negative m e =>
    if m = 0 then .finite negative 0 0
    else
      let (digits, unit) := shortestFrom 16 1 m e
      .finite negative digits unit

def toSignificant (count : Nat) (x : Float) : Figure :=
  match parts x with
  | .nan => .nan
  | .infinite negative => .infinite negative
  | .finite negative m e =>
    if m = 0 then .finite negative 0 (1 - count)
    else
      let (num, den) := ratio m e
      let (digits, unit) := significant count num den
      .finite negative digits unit

def toPlaces (places : Nat) (x : Float) : Figure :=
  match parts x with
  | .nan => .nan
  | .infinite negative => .infinite negative
  | .finite negative m e =>
    let (num, den) := ratio m e
    .finite negative (roundDiv (num * Nat.pow 10 places) den) (-places)

/-- The double nearest to a figure. Figures from `10 ^ 400` on are infinite and those below
`10 ^ -400` are zero, so no long power of ten is ever computed. -/
def ofFigure : Figure → Float
  | .nan => nan
  | .infinite negative => infinity negative
  | .finite negative digits exponent =>
    let size :=
      if digits = 0 then 0.0
      else if 400 ≤ exponent then infinity false
      else if exponent + digitCount digits ≤ -400 then 0.0
      else if 0 ≤ exponent then Float.ofScientific digits false exponent.toNat
      else Float.ofScientific digits true (-exponent).toNat
    if negative then -size else size

end SeededChoice.Double

namespace SeededChoice

instance : Numeral Float where
  ofFigure := Double.ofFigure
  shortest := Double.shortest
  toPlaces := Double.toPlaces

end SeededChoice
