import SeededChoice.Settings.EnvFile
import SeededChoice.Settings.Sources
import SeededChoice.Settings.Value

/-!
# The surroundings of a call

What a call is not given is looked for in the environment, then in an environment file. Names count
in any case; those outside ASCII spell no field. Of several spellings of a name the first one counts
in a call, and the last one elsewhere.
-/

namespace SeededChoice

structure Surroundings where
  environment : List (String × String) := []
  /-- The text of the environment file, if there is one. -/
  file : Option String := none

namespace Surroundings

/-- The first entry of a name, in any case. -/
def firstNamed {β : Type} (name : String) (entries : List (String × β)) : Option β :=
  (entries.find? fun entry => Text.lowerAscii entry.1 == name).map (·.2)

/-- The last entry of a name, in any case. -/
def lastNamed {β : Type} (name : String) (entries : List (String × β)) : Option β :=
  firstNamed name entries.reverse

def fromFile (around : Surroundings) (f : Field) : Option String := do
  let text ← around.file
  let value ← lastNamed (Sources.mark ++ f.name) (EnvFile.read around.environment text)
  value

def sources {α : Type} [Scalar α] [Numeral α] (around : Surroundings) : Sources α :=
  fun values f =>
    match firstNamed f.name values with
    | some v => some v
    | none =>
      match lastNamed (Sources.mark ++ f.name) around.environment with
      | some text => some (Value.text text)
      | none => (around.fromFile f).map Value.text

end Surroundings

end SeededChoice
