import SeededChoice.Scalar
import SeededChoice.Settings.Field

/-!
# Settings

What governs the decisions of an explorer. `get` sees the settings field by field.
-/

namespace SeededChoice

structure Settings (α : Type) where
  strategy : String
  /-- The mass that epsilon-greedy spreads evenly. -/
  epsilon : α
  /-- How steeply softmax weights grow with the scores. -/
  softmaxRate : α
  clampTop : Bool
  /-- The mass that the floor spreads evenly; zero for no floor. -/
  minimumUniform : α
  updateZeros : Bool
  normalize : Bool
  logLevel : String
  diagnostic : Bool

namespace Settings

variable {α : Type}

/-- The settings when nothing is given. -/
def standard [Scalar α] : Settings α where
  strategy := "epsilon_greedy"
  epsilon := Scalar.ofNat 5 / Scalar.ofNat 100
  softmaxRate := 1
  clampTop := false
  minimumUniform := 0
  updateZeros := false
  normalize := true
  logLevel := "summary"
  diagnostic := false

def get (s : Settings α) : (f : Field) → f.kind.Carrier α
  | .strategy => s.strategy
  | .epsilon => s.epsilon
  | .softmaxRate => s.softmaxRate
  | .clampTop => s.clampTop
  | .minimumUniform => s.minimumUniform
  | .updateZeros => s.updateZeros
  | .normalize => s.normalize
  | .logLevel => s.logLevel
  | .diagnostic => s.diagnostic

end Settings

end SeededChoice
