import SeededChoice.Settings.Field
import SeededChoice.Status
import SeededChoice.Strategy

/-!
# Errors

Every way in which a call can be refused, by cause. `message` is the text of those that the library
words itself; the others say only what kind of thing went wrong.
-/

namespace SeededChoice

inductive Error where
  /-- An argument has no reading of the kind that is needed: nothing, a list, a fraction. -/
  | wrongKind
  /-- A number is larger than its destination holds. -/
  | tooLarge
  /-- Rows of a nested list differ in shape. -/
  | ragged
  /-- The not-a-number value has no integer part. -/
  | noInteger
  | frozen
  | readOnly
  /-- Values do not fill the shape of their destination. -/
  | wrongShape
  /-- A value was left for which there is no item. -/
  | pastTheEnd
  /-- A new buffer would have more entries than can be addressed. -/
  | tooManyEntries
  | unencodableText
  | booleanSeed
  | unsupportedSeed (kind : String)
  | seedOutOfRange (n : Int)
  /-- A draw counter, as it is written. -/
  | negativeCounter (n : String)
  /-- A number of draws to skip, as it is written. -/
  | negativeSkip (n : String)
  | outOfRange (operation : String)
  | sizesDiffer (operation : String)
  | unknownStatus (code : Int)
  | negativeActionCount (n : Int)
  | actionCount (given expected : Nat)
  | noActionCount
  | missingInput (strategy : Strategy)
  | unknownStrategy (name : String) (available : List String)
  | strategyTaken (name : String)
  /-- An override names no field; the key carries the mark of overrides. -/
  | unknownField (key field : String)
  | invalidSettings (faults : List (Field × Fault))
  deriving DecidableEq, Repr

namespace Error

/-- Names in a row, or a note that there are none. -/
def listing (names : List String) : String :=
  if names.isEmpty then "(none)" else ", ".intercalate names

def message : Error → Option String
  | booleanSeed => some "Seed must be an int, bytes-like object, or str, not bool"
  | unsupportedSeed kind => some s!"Unsupported seed type: {kind}"
  | seedOutOfRange n => some s!"Integer seed must be in [0, 2**64), got {n}"
  | negativeCounter n => some s!"Draw counter must be non-negative, got {n}"
  | negativeSkip n => some s!"Cannot skip a negative number of draws: {n}"
  | outOfRange operation => some s!"{operation} failed: parameter or buffer out of range"
  | sizesDiffer operation =>
    some s!"{operation} failed: input and probability buffer sizes do not match"
  | unknownStatus code => some s!"Unknown exploration status code: {code}"
  | negativeActionCount n => some s!"Number of actions must be non-negative, got {n}"
  | actionCount given expected => some s!"Got {given} action ids for {expected} actions"
  | noActionCount => some "Cannot infer the number of actions: pass num_actions"
  | missingInput strategy => some s!"{strategy.name} strategy requires {strategy.input}"
  | unknownStrategy name available =>
    some s!"Unknown PMF strategy '{name}'. Available: {listing available}"
  | strategyTaken name => some s!"PMF strategy '{name}' is already registered"
  | unknownField key field => some s!"Unknown config field: '{key}' (no field '{field}' exists)"
  | invalidSettings faults =>
    some ("; ".intercalate (faults.map fun (field, fault) => s!"{field.name}: {fault.name}"))
  | wrongKind | tooLarge | ragged | noInteger | frozen | readOnly | wrongShape | pastTheEnd
  | tooManyEntries | unencodableText => none

end Error

/-- The error that a status of an operation stands for, if any. -/
def Status.check (operation : String) : Status → Except Error Unit
  | success => .ok ()
  | badRange => .error (.outOfRange operation)
  | sizeMismatch => .error (.sizesDiffer operation)

/-- The same for a status given by its code. -/
def Status.checkCode (operation : String) (code : Int) : Except Error Unit :=
  match ofCode? code with
  | some status => status.check operation
  | none => .error (.unknownStatus code)

end SeededChoice
