import SeededChoice.Decimal.Figure

/-!
# Reading figures

The grammar of numbers in settings: an optional sign, then digits with an optional point and an
optional power of ten, or the words for the special values in any case. `ungroup?` takes out the
underscores that group the characters of a number.
-/

namespace SeededChoice.Figure

/-- A text without its underscores, each of which must stand between two other characters. -/
def ungroup? : List Char → Option (List Char)
  | [] => some []
  | '_' :: _ => none
  | [_, '_'] => none
  | c :: '_' :: rest => (ungroup? rest).map (c :: ·)
  | c :: rest => (ungroup? rest).map (c :: ·)

def valueOfDigits (digits : List Char) : Nat :=
  digits.foldl (fun n c => 10 * n + (c.toNat - '0'.toNat)) 0

/-- Splits off a sign; the flag says whether it was a minus. -/
def splitSign : List Char → Bool × List Char
  | '-' :: rest => (true, rest)
  | '+' :: rest => (false, rest)
  | cs => (false, cs)

/-- The power of ten after a number: none written counts as zero. -/
def readExponent? : List Char → Option Int
  | [] => some 0
  | c :: rest =>
    if c = 'e' || c = 'E' then
      let (negative, digits) := splitSign rest
      if !digits.isEmpty && digits.all Char.isDigit then
        some (if negative then -(valueOfDigits digits : Int) else valueOfDigits digits)
      else none
    else none

def readNumber? (negative : Bool) (cs : List Char) : Option Figure :=
  let whole := cs.takeWhile Char.isDigit
  let rest := cs.dropWhile Char.isDigit
  let (fraction, rest) := match rest with
    | '.' :: more => (more.takeWhile Char.isDigit, more.dropWhile Char.isDigit)
    | _ => ([], rest)
  if whole.isEmpty && fraction.isEmpty then none
  else (readExponent? rest).map fun power =>
    .finite negative (valueOfDigits (whole ++ fraction)) (power - fraction.length)

/-- The figure that a text spells, with nothing before or after it. -/
def read? (cs : List Char) : Option Figure :=
  let (negative, body) := splitSign cs
  let word := String.ofList (body.map Char.toLower)
  if word = "nan" then some .nan
  else if word = "inf" || word = "infinity" then some (.infinite negative)
  else readNumber? negative body

end SeededChoice.Figure
