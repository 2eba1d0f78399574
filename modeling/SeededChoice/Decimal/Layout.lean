import SeededChoice.Decimal.Figure

/-!
# Layout of figures

How chosen digits are put on the line: with the point in place, with a power of ten, or whichever
a `Layout` prefers for the size of the number.
-/

namespace SeededChoice

/-- The written conventions of one output. -/
structure Layout where
  /-- The least power of ten of a leading digit that is written with the point in place. -/
  leastInPlace : Int
  /-- The least power of ten of a leading digit that is written with a power of ten. -/
  leastScaled : Int := 16
  /-- The least number of digits of a power of ten. -/
  exponentWidth : Nat
  nan : String
  infinity : String
  negativeInfinity : String

namespace Figure

def zeros (n : Nat) : List Char := List.replicate n '0'

def padLeft (width : Nat) (cs : List Char) : List Char := zeros (width - cs.length) ++ cs

def signText (negative : Bool) : List Char := if negative then ['-'] else []

/-- Digits with the point in place; a whole number gets one zero after the point. -/
def inPlace (digits : List Char) (exponent : Int) : List Char :=
  if 0 ≤ exponent then digits ++ zeros exponent.toNat ++ ['.', '0']
  else
    let after := (-exponent).toNat
    let padded := padLeft (after + 1) digits
    padded.take (padded.length - after) ++ '.' :: padded.drop (padded.length - after)

/-- Digits with the point after the first one, and the power of ten that the first one counts. -/
def scaled (digits : List Char) (width : Nat) (leading : Int) : List Char :=
  let mark := if leading < 0 then '-' else '+'
  let power := padLeft width (Nat.toDigits 10 leading.natAbs)
  let fraction := digits.drop 1
  digits.take 1 ++ (if fraction.isEmpty then [] else '.' :: fraction) ++ 'e' :: mark :: power

/-- All the decimal places of a figure, as in `-0.0625`. -/
def placesText : Figure → String
  | nan => "nan"
  | infinite negative => String.ofList (signText negative ++ ['i', 'n', 'f'])
  | finite negative digits exponent =>
    String.ofList (signText negative ++ inPlace (Nat.toDigits 10 digits) exponent)

/-- A figure of `count` significant digits, as in `6.25e-02`. -/
def significantText (count : Nat) : Figure → String
  | nan => "nan"
  | infinite negative => String.ofList (signText negative ++ ['i', 'n', 'f'])
  | finite negative digits exponent =>
    String.ofList (signText negative ++
      scaled (padLeft count (Nat.toDigits 10 digits)) 2 (exponent + count - 1))

end Figure

/-- The text of a figure under a layout. -/
def Layout.write (layout : Layout) : Figure → String
  | .nan => layout.nan
  | .infinite false => layout.infinity
  | .infinite true => layout.negativeInfinity
  | .finite negative digits exponent =>
    let text := Nat.toDigits 10 digits
    let leading := exponent + text.length - 1
    String.ofList (Figure.signText negative ++
      if layout.leastInPlace ≤ leading ∧ leading < layout.leastScaled then
        Figure.inPlace text exponent
      else Figure.scaled text layout.exponentWidth leading)

end SeededChoice
