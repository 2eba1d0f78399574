/-!
# Rounding a quotient

`roundDiv` rounds an exact quotient of natural numbers to the nearest whole number, a half to the
even neighbour. All digits and all narrowings of a number go through it.
-/

namespace SeededChoice

/-- `num / den` to the nearest natural number, a tie to the even one. -/
def roundDiv (num den : Nat) : Nat :=
  let q := num / den
  let r := num % den
  if 2 * r < den then q
  else if 2 * r = den then q + q % 2
  else q + 1

end SeededChoice
