/-!
# Fields of the settings

The nine settings by name and by kind, and what can be wrong with a value given for one.
-/

namespace SeededChoice

/-- The kinds of settings. -/
inductive Kind where
  | real
  | flag
  | text
  deriving DecidableEq, Repr

/-- The values of a kind, where `α` has the real ones. -/
abbrev Kind.Carrier (α : Type) : Kind → Type
  | real => α
  | flag => Bool
  | text => String

inductive Field where
  | strategy
  | epsilon
  | softmaxRate
  | clampTop
  | minimumUniform
  | updateZeros
  | normalize
  | logLevel
  | diagnostic
  deriving DecidableEq, Repr

namespace Field

def all : List Field :=
  [strategy, epsilon, softmaxRate, clampTop, minimumUniform, updateZeros, normalize, logLevel,
    diagnostic]

def name : Field → String
  | strategy => "strategy"
  | epsilon => "epsilon"
  | softmaxRate => "softmax_lambda"
  | clampTop => "clamp_top_action"
  | minimumUniform => "minimum_uniform"
  | updateZeros => "update_zero_elements"
  | normalize => "normalize_before_sampling"
  | logLevel => "log_level"
  | diagnostic => "diagnostic_mode"

def kind : Field → Kind
  | strategy | logLevel => .text
  | epsilon | softmaxRate | minimumUniform => .real
  | clampTop | updateZeros | normalize | diagnostic => .flag

def ofName? (s : String) : Option Field := all.find? (·.name == s)

theorem mem_all (f : Field) : f ∈ all := by cases f <;> decide

theorem ofName?_name (f : Field) : ofName? f.name = some f := by cases f <;> decide +kernel

end Field

/-- Why a value does not fit a field, by the name that it is reported under. -/
structure Fault where
  name : String
  deriving DecidableEq, Repr

end SeededChoice
