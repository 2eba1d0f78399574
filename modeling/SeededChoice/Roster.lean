import SeededChoice.Generator
import SeededChoice.Registry
import SeededChoice.Settings

/-!
# Rosters

Settings choose a strategy by name from a roster. The built-in strategies are one roster, and every
registry of classes is one.
-/

namespace SeededChoice

variable {α : Type}

/-- What a strategy plans under settings, for the arguments of a request and a number of actions. -/
abbrev Planner (α : Type) :=
  Settings α → Argument α → Argument α → Argument α → Nat → Except Error (Planned Status α)

class Roster (α : Type) where
  Member : Type
  /-- The member that settings name, if they name one. -/
  ofSettings : Settings α → Except Error Member
  /-- The name that a member goes by. -/
  name : Member → String
  plan : Member → Planner α

/-- The classes of a registry, each of which plans in its own way. -/
@[reducible]
def Registry.roster {κ : Type} [BEq κ] (r : Registry κ) (plans : κ → Planner α) : Roster α where
  Member := κ
  ofSettings s := r.get s.strategy
  name := r.label
  plan := plans

/-! ### The built-in strategies -/

namespace Strategy

variable [Scalar α]

/-- The distribution of a strategy over `n` actions. Each strategy needs one input. -/
def plan (strategy : Strategy) (s : Settings α) (topAction scores votes : Argument α) (n : Nat) :
    Except Error (Planned Status α) :=
  match strategy with
  | epsilonGreedy =>
    if topAction.isAbsent then .error (.missingInput strategy)
    else Generator.greedy (.real s.epsilon) topAction s.clampTop n
  | softmax =>
    if scores.isAbsent then .error (.missingInput strategy)
    else Generator.softmax (.real s.softmaxRate) scores n
  | bag =>
    if votes.isAbsent then .error (.missingInput strategy)
    else Generator.bag votes n

def ofSettings (s : Settings α) : Except Error Strategy := (Registry.builtin id).get s.strategy

end Strategy

instance [Scalar α] : Roster α where
  Member := Strategy
  ofSettings := Strategy.ofSettings
  name := Strategy.name
  plan := Strategy.plan

@[simp] theorem Roster.ofSettings_builtin [Scalar α] (s : Settings α) :
    Roster.ofSettings s = Strategy.ofSettings s := rfl

@[simp] theorem Roster.plan_builtin [Scalar α] (strategy : Strategy) :
    Roster.plan (α := α) strategy = strategy.plan := rfl

end SeededChoice
