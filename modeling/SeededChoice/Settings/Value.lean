import SeededChoice.Decimal.Reader
import SeededChoice.Settings.Coercion
import SeededChoice.Text.Blank
import SeededChoice.Text.Utf8

/-!
# Values

The values that callers give for settings. They are read leniently: numbers and flags may be spelled
as text, and text may come as bytes.
-/

namespace SeededChoice

inductive Value (α : Type) where
  | absent
  | flag (b : Bool)
  | integer (n : Int)
  | real (x : α)
  | text (s : String)
  | bytes (data : List UInt8)
  /-- A list or a mapping, which fits no field. -/
  | compound

namespace Fault

def realKind : Fault := ⟨"float_type"⟩

def realText : Fault := ⟨"float_parsing"⟩

def flagKind : Fault := ⟨"bool_type"⟩

def flagText : Fault := ⟨"bool_parsing"⟩

def textKind : Fault := ⟨"string_type"⟩

def textEncoding : Fault := ⟨"string_unicode"⟩

end Fault

namespace Value

variable {α : Type} [Scalar α] [Numeral α]

/-- The spelling of a value that is text or encoded text. Bytes that encode nothing are a fault of
the text, whatever it was to spell. -/
def spelling? (fault : Fault) : Value α → Except Fault (Option String)
  | text s => .ok (some s)
  | bytes data =>
    match Utf8.decode? data with
    | some s => .ok (some s)
    | none => .error fault
  | absent | flag _ | integer _ | real _ | compound => .ok none

/-- A number with blanks around it, or a grouped one without. -/
def realOfText (s : String) : Except Fault α :=
  let plain := Figure.read? (Text.trim Text.isWhiteSpace s.toList)
  match plain <|> (Figure.ungroup? s.toList).bind Figure.read? with
  | some figure => .ok (Numeral.ofFigure figure)
  | none => .error .realText

def toReal (v : Value α) : Except Fault α := do
  match ← v.spelling? .realText with
  | some s => realOfText s
  | none =>
    match v with
    | flag b => return if b then 1 else 0
    | real x => return x
    | integer n =>
      match Scalar.ofInt? n with
      | some x => return x
      | none => throw .realKind
    | _ => throw .realKind

def flagOfText (s : String) : Except Fault Bool :=
  let word := Text.lowerAscii s
  if ["0", "off", "f", "false", "n", "no"].contains word then .ok false
  else if ["1", "on", "t", "true", "y", "yes"].contains word then .ok true
  else .error .flagText

/-- Zero and one are flags. Other integers of 64 bits are misspelled flags. -/
def flagOfInteger (n : Int) : Except Fault Bool :=
  if n = 0 then .ok false
  else if n = 1 then .ok true
  else if Scalar.isWord n then .error .flagText
  else .error .flagKind

/-- A whole real counts as its integer, except at the lower end of the 64-bit range, which no real
is told from numbers below it. -/
def flagOfReal (x : α) : Except Fault Bool :=
  match Scalar.truncate? x with
  | some n =>
    if (Scalar.ofInt? n).any (· == x) && n ≠ Int64.minValue.toInt then flagOfInteger n
    else .error .flagKind
  | none => .error .flagKind

def toFlag (v : Value α) : Except Fault Bool := do
  match ← v.spelling? .flagText with
  | some s => flagOfText s
  | none =>
    match v with
    | flag b => return b
    | integer n => flagOfInteger n
    | real x => flagOfReal x
    | _ => throw .flagKind

def toText (v : Value α) : Except Fault String := do
  match ← v.spelling? .textEncoding with
  | some s => return s
  | none => throw .textKind

end Value

variable {α : Type} [Scalar α] [Numeral α]

instance : Coercion α where
  Given := Value α
  read
    | .real => Value.toReal
    | .flag => Value.toFlag
    | .text => Value.toText
  give
    | .real => Value.real
    | .flag => Value.flag
    | .text => Value.text

instance : LawfulCoercion α where
  read_give
    | .real, _ => rfl
    | .flag, _ => rfl
    | .text, _ => rfl

end SeededChoice
