import SeededChoice.Settings.Sources

/-!
# Overrides

Marked keys override settings for one decision; other keys are ignored. A marked key must name a
field, and the values are coerced like any others. The default settings stay as they are.
-/

namespace SeededChoice

abbrev Overrides (α : Type) [Coercion α] := List (String × Coercion.Given α)

namespace Overrides

variable {α : Type} [Coercion α]

/-- The name behind the mark of a key. -/
def fieldName? (key : String) : Option String :=
  let mark := Sources.mark.toList
  if key.toList.take mark.length == mark then some (String.ofList (key.toList.drop mark.length))
  else none

/-- The first key that is marked and names no field. -/
def unknownKey? (o : Overrides α) : Option (String × String) :=
  o.findSome? fun (key, _) =>
    match fieldName? key with
    | some name => if (Field.ofName? name).isNone then some (key, name) else none
    | none => none

/-- Checks all keys, whatever their values. -/
def validate (o : Overrides α) : Except Error Unit :=
  match o.unknownKey? with
  | some (key, name) => .error (.unknownField key name)
  | none => .ok ()

def updates (o : Overrides α) : List (String × Coercion.Given α) :=
  o.filterMap fun (key, value) => (fieldName? key).map (·, value)

end Overrides

namespace Settings

variable {α : Type} [Scalar α] [Coercion α]

/-- The settings under overrides for a call that looks for values around it, or nothing when no
override applies. The last update of a field counts, and all fields are given anew. -/
def overrideIn? (around : Sources α) (s : Settings α) (o : Overrides α) :
    Except Error (Option (Settings α)) := do
  o.validate
  if o.updates.isEmpty then return none
  else return some (← around.load (o.updates.reverse ++ s.entries))

/-- The settings that overrides leave in force. -/
def resolveIn (around : Sources α) (s : Settings α) (o : Overrides α) :
    Except Error (Settings α) := do
  return (← s.overrideIn? around o).getD s

/-- The settings under overrides for a call that looks nowhere else. -/
def override? (s : Settings α) (o : Overrides α) : Except Error (Option (Settings α)) :=
  s.overrideIn? .given o

def resolve (s : Settings α) (o : Overrides α) : Except Error (Settings α) :=
  s.resolveIn .given o

end Settings

end SeededChoice
