/-!
# Statuses

The outcome of a core operation, with its public code and name.
-/

namespace SeededChoice

inductive Status where
  | success
  /-- A parameter or a buffer is outside its domain. -/
  | badRange
  /-- Related sequences have lengths that do not fit each other. -/
  | sizeMismatch
  deriving DecidableEq, Repr

namespace Status

def all : List Status := [success, badRange, sizeMismatch]

def code : Status → Int
  | success => 0
  | badRange => 1
  | sizeMismatch => 2

def name : Status → String
  | success => "SUCCESS"
  | badRange => "BAD_RANGE"
  | sizeMismatch => "PDF_RANKING_SIZE_MISMATCH"

def ofCode? (n : Int) : Option Status := all.find? (·.code == n)

theorem ofCode?_code (s : Status) : ofCode? s.code = some s := by cases s <;> rfl

end Status

end SeededChoice
