import SeededChoice.Decimal.Layout
import SeededChoice.Scalar.Sum
import SeededChoice.Settings
import SeededChoice.Text.Quoted

/-!
# The decision log

One record for each decision. The log writes a line for it as its level says, and keeps it when it
runs in diagnostic mode; a summary aggregates the records kept.
-/

namespace SeededChoice

structure Record (α : Type) where
  /-- When the decision was made, in nanoseconds. -/
  timestamp : Int
  /-- How long it took, in milliseconds. -/
  duration : α
  strategy : String
  actionCount : Int
  minimumUniform : α
  normalized : Bool
  /-- The expanded seed, which is enough to replay the draw. -/
  seed : Int
  chosen : Int
  probability : α
  digest : String

/-! ### Lines -/

namespace Record

variable {α : Type} [Numeral α]

def places (count : Nat) (x : α) : String := (Numeral.toPlaces count x).placesText

def summaryLine (r : Record α) : String :=
  let mark := if r.normalized then "" else " [UNNORMALIZED]"
  s!"strategy={r.strategy} actions={r.actionCount} chosen={r.chosen} prob="
    ++ places 4 r.probability ++ s!" seed={r.seed} floor=" ++ places 4 r.minimumUniform
    ++ mark ++ " total=" ++ places 3 r.duration ++ "ms"

/-- Reals have a point in place from `10 ^ -4` on and below `10 ^ 16`, else a signed power of ten of
at least two digits. -/
def layout : Layout where
  leastInPlace := -4
  exponentWidth := 2
  nan := "NaN"
  infinity := "Infinity"
  negativeInfinity := "-Infinity"

def fieldTexts (r : Record α) : List (String × String) :=
  let real (x : α) : String := layout.write (Numeral.shortest x)
  [("timestamp_ns", toString r.timestamp), ("total_ms", real r.duration),
    ("strategy", Text.quote true r.strategy), ("num_actions", toString r.actionCount),
    ("minimum_uniform", real r.minimumUniform), ("normalized", toString r.normalized),
    ("seed_hash", toString r.seed), ("chosen_index", toString r.chosen),
    ("chosen_probability", real r.probability), ("config_hash", Text.quote true r.digest)]

def fullLine (r : Record α) : String :=
  let entries := r.fieldTexts.map fun (name, text) => Text.quote true name ++ ": " ++ text
  "decision_record: \x7b" ++ ", ".intercalate entries ++ "\x7d"

end Record

/-! ### The log -/

structure DecisionLog (α : Type) where
  /-- The level by name: `none`, `summary` and `full` are known, others write nothing. -/
  level : String
  diagnostic : Bool
  /-- The records kept, the oldest first. -/
  records : List (Record α) := []

namespace DecisionLog

variable {α : Type}

def ofSettings (s : Settings α) : DecisionLog α where
  level := s.logLevel
  diagnostic := s.diagnostic

/-- The lines that a record is worth at a level. -/
def lines [Numeral α] (level : String) (r : Record α) : List String :=
  if level = "summary" then [r.summaryLine]
  else if level = "full" then [r.fullLine]
  else []

/-- Logs a record: the log after it and the lines written. -/
def add [Numeral α] (log : DecisionLog α) (r : Record α) : DecisionLog α × List String :=
  ({ log with records := if log.diagnostic then log.records ++ [r] else log.records },
    lines log.level r)

end DecisionLog

/-! ### Summaries -/

structure Summary (α : Type) where
  decisions : Nat
  meanProbability : α
  leastProbability : α
  meanDuration : α
  greatestDuration : α
  /-- How often each index was chosen, by ascending index. -/
  indexCounts : List (Int × Nat)
  /-- How often each strategy was used, by ascending name. -/
  strategyCounts : List (String × Nat)
  /-- How many decisions chose another action than the first. -/
  moved : Nat
  movedRate : α

namespace DecisionLog

/-- The different keys in ascending order, each with the number of its occurrences. -/
def counts {κ : Type} [DecidableEq κ] (le : κ → κ → Bool) (keys : List κ) : List (κ × Nat) :=
  (keys.eraseDups.mergeSort le).map fun k => (k, keys.count k)

variable {α : Type} [Scalar α]

/-- The entries are added one by one from the left. Where sums are rounded each of them is, and what
a rounding loses is not made up for later. -/
def mean (xs : List α) : α := Scalar.sumInOrder xs / Scalar.ofNat xs.length

/-- The summary of the records kept, if there are any. -/
def summary? (log : DecisionLog α) : Option (Summary α) :=
  match log.records with
  | [] => none
  | first :: rest =>
    let records := first :: rest
    let moved := records.countP fun r => r.chosen ≠ 0
    some {
      decisions := records.length
      meanProbability := mean (records.map Record.probability)
      leastProbability := Scalar.smallest first.probability (rest.map Record.probability)
      meanDuration := mean (records.map Record.duration)
      greatestDuration := Scalar.largest first.duration (rest.map Record.duration)
      indexCounts := counts (fun a b => decide (a ≤ b)) (records.map Record.chosen)
      strategyCounts := counts (fun a b => decide (a ≤ b)) (records.map Record.strategy)
      moved
      movedRate := Scalar.ofNat moved / Scalar.ofNat records.length }

end DecisionLog

end SeededChoice
