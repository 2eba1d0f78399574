/-!
# Figures

A figure is a number as people write it: a sign, decimal digits and a power of ten, or one of the
special values. `Numeral` names the figures that a kind of number is written with and read from.
-/

namespace SeededChoice

inductive Figure where
  | nan
  | infinite (negative : Bool)
  /-- `± digits · 10 ^ exponent`. -/
  | finite (negative : Bool) (digits : Nat) (exponent : Int)
  deriving DecidableEq, Repr

class Numeral (α : Type) where
  /-- The number nearest to a figure. -/
  ofFigure : Figure → α
  /-- The figure of fewest digits that reads back as the number, the nearest one among these. -/
  shortest : α → Figure
  toPlaces : Nat → α → Figure

end SeededChoice
