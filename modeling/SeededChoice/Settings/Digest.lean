import SeededChoice.Decimal.Layout
import SeededChoice.Hash.Sha256
import SeededChoice.Settings
import SeededChoice.Text.Quoted
import SeededChoice.Text.Utf8

/-!
# Digest of settings

Settings are identified by the first 64 bits of a secure hash of their text, which writes all fields
in order without blanks.
-/

namespace SeededChoice.Settings

variable {α : Type} [Numeral α]

/-- Reals have a point in place from `10 ^ -5` on and below `10 ^ 16`, else a signed power of ten;
special values are written as nothing. -/
def digestLayout : Layout where
  leastInPlace := -5
  exponentWidth := 1
  nan := "null"
  infinity := "null"
  negativeInfinity := "null"

def valueText : (k : Kind) → k.Carrier α → String
  | .real, x => digestLayout.write (Numeral.shortest x)
  | .flag, b => toString b
  | .text, s => Text.quote false s

def text (s : Settings α) : String :=
  let entry (f : Field) : String := Text.quote false f.name ++ ":" ++ valueText f.kind (s.get f)
  "\x7b" ++ ",".intercalate (Field.all.map entry) ++ "\x7d"

def hexWord (w : UInt32) : String :=
  let digits := Nat.toDigits 16 w.toNat
  String.ofList (List.replicate (8 - digits.length) '0' ++ digits)

def digest (s : Settings α) : String :=
  String.join (((Sha256.digest (Utf8.encode s.text)).take 2).map hexWord)

end SeededChoice.Settings
