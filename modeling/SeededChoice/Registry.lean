import SeededChoice.Error

/-!
# The registry of strategies

Names stand for classes of strategies. A name is given once; a class may have many names and goes by
the last one that was accepted for it.
-/

namespace SeededChoice

structure Registry (κ : Type) where
  entries : List (String × κ) := []
  /-- The name that each class goes by; a class without one goes by the empty name. -/
  labels : List (κ × String) := []

namespace Registry

variable {κ : Type} [BEq κ]

def find? (r : Registry κ) (name : String) : Option κ := r.entries.lookup name

def label (r : Registry κ) (c : κ) : String := (r.labels.lookup c).getD ""

/-- Gives a class a new name. A name that is taken is refused, and nothing changes. -/
def register (r : Registry κ) (name : String) (c : κ) : Except Error (Registry κ) :=
  if (r.find? name).isSome then .error (.strategyTaken name)
  else .ok { entries := r.entries ++ [(name, c)], labels := (c, name) :: r.labels }

def names (r : Registry κ) : List String :=
  (r.entries.map (·.1)).mergeSort fun a b => decide (a ≤ b)

def get (r : Registry κ) (name : String) : Except Error κ :=
  match r.find? name with
  | some c => .ok c
  | none => .error (.unknownStrategy name r.names)

/-- The registry of the built-in strategies, whose classes are given by `f`. -/
def builtin (f : Strategy → κ) : Registry κ where
  entries := Strategy.all.map fun s => (s.name, f s)
  labels := Strategy.all.map fun s => (f s, s.name)

end Registry

end SeededChoice
