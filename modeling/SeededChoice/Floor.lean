import SeededChoice.Buffer
import SeededChoice.Scalar.Sum

/-!
# The probability floor

Every eligible entry is raised to at least `minimum / n`, and the eligible mass stays what it was.
Entries at or below the floor are pinned to it and the rest is scaled down, in passes, until no
entry falls below the floor any more.
-/

namespace SeededChoice.Floor

variable {α : Type} [Scalar α]

inductive Role where
  /-- Not eligible: stays as it is. -/
  | excluded
  /-- Eligible and scaled. -/
  | free
  /-- Eligible and held at the floor. -/
  | pinned
  deriving DecidableEq, Repr

structure Entry (α : Type) where
  value : α
  role : Role

namespace Entry

def isFree (e : Entry α) : Bool := e.role = .free

def isPinned (e : Entry α) : Bool := e.role = .pinned

def isEligible (e : Entry α) : Bool := e.role ≠ .excluded

end Entry

/-- A positive entry is eligible, and a zero one if zeros are to be raised too. -/
def isEligible (zeros : Bool) (x : α) : Bool := decide (0 < x) || (zeros && x == 0)

/-- The roles before the first pass. -/
def start (zeros : Bool) (floor x : α) : Entry α :=
  { value := x
    role := if !isEligible zeros x then .excluded else if x ≤ floor then .pinned else .free }

/-- What a pass comes to. -/
inductive Pass (α : Type) where
  /-- The values are final. -/
  | done (values : List α)
  /-- More entries were pinned. -/
  | again (entries : List (Entry α))

def freeMass (entries : List (Entry α)) : α :=
  Scalar.sum ((entries.filter Entry.isFree).map Entry.value)

/-- The factor that makes the free entries take up what the pinned ones leave of the target. -/
def ratio (floor target : α) (entries : List (Entry α)) : α :=
  (target - floor * Scalar.ofNat (entries.countP Entry.isPinned)) / freeMass entries

def spread (target : α) (entries : List (Entry α)) : List α :=
  let share := target / Scalar.ofNat (entries.countP Entry.isEligible)
  entries.map fun e => if e.isEligible then share else e.value

def sinks (floor factor : α) (e : Entry α) : Bool := e.isFree && decide (e.value * factor < floor)

def settle (floor factor : α) (e : Entry α) : α :=
  match e.role with
  | .excluded => e.value
  | .free => e.value * factor
  | .pinned => floor

/-- One pass: nothing left to scale spreads the target evenly, entries that sink are pinned, and
otherwise the entries settle. -/
def pass (floor target : α) (entries : List (Entry α)) : Pass α :=
  if !entries.any Entry.isFree || decide (freeMass entries ≤ 0) then .done (spread target entries)
  else
    let factor := ratio floor target entries
    if entries.any (sinks floor factor) then
      .again (entries.map fun e => if sinks floor factor e then { e with role := .pinned } else e)
    else .done (entries.map (settle floor factor))

/-- Passes until the values are final. The first argument bounds their number; a pass that goes on
pins an entry, so the number of entries is always enough. -/
def passes (floor target : α) : Nat → List (Entry α) → List α
  | 0, entries => spread target entries
  | n + 1, entries =>
    match pass floor target entries with
    | .done values => values
    | .again entries => passes floor target n entries

/-- The values with the floor applied, for `n` actions. -/
def raise (minimum : α) (zeros : Bool) (values : List α) (n : Nat) : List α :=
  let floor := minimum / Scalar.ofNat n
  let mass := Scalar.sum (values.filter (isEligible zeros))
  let target := if mass ≤ 0 then 1 else mass
  passes floor target values.length (values.map (start zeros floor))

/-- Above this the floor is taken for full uniform exploration. -/
def uniformThreshold : α := Scalar.ofNat 999 / Scalar.ofNat 1000

/-- The same share for every eligible entry. -/
def level (zeros : Bool) (values : List α) : List α :=
  let share := 1 / Scalar.ofNat (values.countP (isEligible zeros))
  values.map fun x => if isEligible zeros x then share else x

/-- Raises the entries of a buffer to a share of `minimum`. -/
def enforce (minimum : Argument α) (zeros : Bool) (b : Buffer α) :
    Except Error (Planned Status α) := do
  let minimum ← minimum.toReal
  if b.length = 0 || !Scalar.inUnitInterval minimum then return .refuse .badRange
  else if !b.entries.all Scalar.isFinite then return .refuse .badRange
  else if !b.entries.any (isEligible zeros) || minimum == 0 then return .accept .keep
  else if uniformThreshold < minimum then return .accept (.assign (level zeros b.entries))
  else return .accept (.assign (raise minimum zeros b.entries b.length))

end SeededChoice.Floor
