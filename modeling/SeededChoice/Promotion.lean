import SeededChoice.Argument

/-!
# Promotion of the chosen action

The chosen action trades places with the first one. Choosing the first one writes nothing.
-/

namespace SeededChoice.Promotion

variable {β : Type}

/-- The list with its first entry and the one at `i` exchanged. -/
def exchange (actions : List β) (i : Nat) : List β :=
  match actions[0]?, actions[i]? with
  | some first, some chosen => (actions.set 0 chosen).set i first
  | _, _ => actions

/-- The list with the chosen action in front, unless the choice is outside it. -/
def promote (actions : List β) (chosen : Int) : Status × List β :=
  if 0 ≤ chosen ∧ chosen < actions.length then (.success, exchange actions chosen.toNat)
  else (.badRange, actions)

/-- The same in a sequence that may be immutable, for a choice as callers pass it. -/
def promoteIn {α : Type} [Scalar α] (frozen : Bool) (actions : List β) (chosen : Argument α) :
    Except Error Status × List β :=
  match chosen.toIndex with
  | .error e => (.error e, actions)
  | .ok chosen =>
    let (status, after) := promote actions chosen
    if frozen && status = .success && chosen ≠ 0 then (.error .frozen, actions)
    else (.ok status, after)

end SeededChoice.Promotion
