import SeededChoice.Settings.Coercion

/-!
# Where settings come from

A call is given values under names, and may find others elsewhere. A field for which nothing is
found has its standard value.
-/

namespace SeededChoice

/-- What a call finds for a field when it is given values under names. Of several values under one
name the first one is given. -/
abbrev Sources (α : Type) [Coercion α] :=
  List (String × Coercion.Given α) → Field → Option (Coercion.Given α)

namespace Sources

variable {α : Type} [Coercion α]

/-- The mark that names carry outside of calls. -/
def mark : String := "explore_"

/-- Nothing is found but what is given. -/
def given : Sources α := fun values f => values.lookup f.name

/-- Among names of fields, what is given comes before all that is found elsewhere. -/
def GivenFirst (around : Sources α) : Prop :=
  ∀ (values : List (String × Coercion.Given α)) (f : Field) (v : Coercion.Given α),
    (∀ entry ∈ values, ∃ g : Field, g.name = entry.1) →
      values.lookup f.name = some v → around values f = some v

def load [Scalar α] (around : Sources α) (values : List (String × Coercion.Given α)) :
    Except Error (Settings α) :=
  Settings.ofValues fun f =>
    (around values f).getD (Coercion.give f.kind (Settings.standard.get f))

end Sources

end SeededChoice
