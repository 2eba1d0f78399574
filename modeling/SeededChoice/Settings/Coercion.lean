import SeededChoice.Error
import SeededChoice.Settings

/-!
# Coercion of given values

Settings are made of values that are given for their fields. How a value is read depends on nothing
but the kind of its field.
-/

namespace SeededChoice

/-- What can be given for fields, and how it is read as a value of each kind. -/
class Coercion (α : Type) where
  Given : Type
  read : (k : Kind) → Given → Except Fault (k.Carrier α)
  /-- A value of a kind, given as it is. -/
  give : (k : Kind) → k.Carrier α → Given

/-- A coercion that leaves alone what is of the kind already. -/
class LawfulCoercion (α : Type) [Coercion α] : Prop where
  read_give (k : Kind) (x : k.Carrier α) : Coercion.read k (Coercion.give k x) = .ok x

variable {α : Type} [Coercion α]

def Field.read (f : Field) (v : Coercion.Given α) : Except Fault (f.kind.Carrier α) :=
  Coercion.read f.kind v

namespace Settings

/-- The settings as a caller would give them. -/
def entries (s : Settings α) : List (String × Coercion.Given α) :=
  Field.all.map fun f => (f.name, Coercion.give f.kind (s.get f))

/-- The fault of a field, if a value does not fit it. -/
def fault? (f : Field) (v : Coercion.Given α) : Option Fault :=
  match f.read v with
  | .ok _ => none
  | .error fault => some fault

/-- The faults of all fields, in the order of the fields. -/
def faults (values : Field → Coercion.Given α) : List (Field × Fault) :=
  Field.all.filterMap fun f => (fault? f (values f)).map (f, ·)

/-- The settings of values that all fit. -/
def coerce (values : Field → Coercion.Given α) : Except Fault (Settings α) := do
  return {
    strategy := ← Field.strategy.read (values .strategy)
    epsilon := ← Field.epsilon.read (values .epsilon)
    softmaxRate := ← Field.softmaxRate.read (values .softmaxRate)
    clampTop := ← Field.clampTop.read (values .clampTop)
    minimumUniform := ← Field.minimumUniform.read (values .minimumUniform)
    updateZeros := ← Field.updateZeros.read (values .updateZeros)
    normalize := ← Field.normalize.read (values .normalize)
    logLevel := ← Field.logLevel.read (values .logLevel)
    diagnostic := ← Field.diagnostic.read (values .diagnostic) }

/-- The settings of values for all fields, or all that is wrong with the values. -/
def ofValues (values : Field → Coercion.Given α) : Except Error (Settings α) :=
  match coerce values with
  | .ok s => .ok s
  | .error _ => .error (.invalidSettings (faults values))

end Settings

end SeededChoice
