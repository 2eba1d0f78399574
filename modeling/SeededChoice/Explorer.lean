import SeededChoice.DecisionLog
import SeededChoice.Fresh
import SeededChoice.Promotion
import SeededChoice.Roster
import SeededChoice.Settings.Digest
import SeededChoice.Settings.Override

/-!
# The explorer

A decision goes from a request to a distribution, its floor, a seeded draw and the promoted action.
`decide` makes it under given settings; `choose` also resolves overrides and keeps the log. An
explorer keeps what it has found for its own settings.
-/

namespace SeededChoice

/-- What a caller asks for. What is not given is absent. -/
structure Request (α β : Type) where
  seed : Seed
  topAction : Argument α := .absent
  scores : Argument α := .absent
  votes : Argument α := .absent
  actionCount : Argument α := .absent
  /-- The actions in rank order. -/
  actions : Option (List β) := none

structure Decision (α β : Type) where
  index : Nat
  probability : α
  /-- The distribution that the index was drawn from. -/
  distribution : List α
  /-- The expanded seed, which replays the draw. -/
  seed : UInt64
  strategy : String
  actions : Option (List β)

structure Clock (α : Type) where
  /-- When it was made, in nanoseconds. -/
  timestamp : Int
  /-- How long it took, in milliseconds. -/
  duration : α

/-! ### Decisions -/

namespace Request

variable {α β : Type} [Scalar α]

/-- The number of actions: as given, else one for each score, else one for each action. -/
def size (q : Request α β) : Except Error Int :=
  if !q.actionCount.isAbsent then q.actionCount.toCount
  else if !q.scores.isAbsent then q.scores.length.map Int.ofNat
  else
    match q.actions with
    | some actions => .ok actions.length
    | none => .error .noActionCount

/-- The number of actions, if it is one and the actions given are as many. -/
def checkedSize (q : Request α β) : Except Error Nat := do
  let size ← q.size
  if size < 0 then throw (.negativeActionCount size)
  if let some actions := q.actions then
    if (actions.length : Int) ≠ size then throw (.actionCount actions.length size.toNat)
  return size.toNat

end Request

variable {α β : Type} [Scalar α] [Numeral α] [Coercion α] [Roster α]

/-- The distribution of a request before the draw: generated, then raised to the floor if there is
to be one. -/
def Settings.distribution (s : Settings α) (member : Roster.Member α) (q : Request α β) (n : Nat) :
    Except Error (Buffer α) := do
  let b ← Buffer.zeros n
  let b ← Fresh.perform (Roster.name member ++ " generation") b
    (Roster.plan member s q.topAction q.scores q.votes n)
  if 0 < s.minimumUniform then
    Fresh.perform "enforce_minimum_probability" b
      (Floor.enforce (.real s.minimumUniform) s.updateZeros b)
  else return b

/-- Makes a decision by a strategy, with the record of it. The strategy and the digest are those of
the settings. -/
def Settings.decideBy (s : Settings α) (member : Roster.Member α) (digest : String)
    (q : Request α β) (clock : Clock α) : Except Error (Decision α β × Record α) := do
  let n ← q.checkedSize
  let b ← s.distribution member q n
  let (sample, b) := b.perform (.ok
    (if s.normalize then Sampler.afterNormalizing q.seed b
      else Sampler.withoutNormalizing q.seed b))
  let sample ← sample
  let index ← Fresh.drawn "sampling" sample.status sample.index
  let actions ← q.actions.mapM fun actions => do
    let (status, promoted) := Promotion.promote actions index
    status.check "swap_chosen"
    return promoted
  let seed ← q.seed.expand
  let probability := b.entries.getD index 0
  return (
    { index, probability, distribution := b.entries, seed, strategy := Roster.name member,
      actions },
    { timestamp := clock.timestamp, duration := clock.duration, strategy := Roster.name member,
      actionCount := n, minimumUniform := s.minimumUniform, normalized := s.normalize,
      seed := seed.toNat, chosen := index, probability, digest })

/-- Makes a decision under settings, with the record of it. -/
def Settings.decide (s : Settings α) (q : Request α β) (clock : Clock α) :
    Except Error (Decision α β × Record α) := do
  s.decideBy (← Roster.ofSettings s) s.digest q clock

/-! ### The explorer -/

/-- Default settings with what was found for them once, and the log of the decisions. -/
structure Explorer (α : Type) [Numeral α] [Roster α] where
  settings : Settings α
  log : DecisionLog α
  /-- The strategy of the settings. -/
  strategy : Except Error (Roster.Member α) := Roster.ofSettings settings
  /-- The digest of the settings. -/
  digest : String := settings.digest
  strategy_eq : strategy = Roster.ofSettings settings := by rfl
  digest_eq : digest = settings.digest := by rfl

namespace Explorer

def flagText (b : Bool) : String := if b then "True" else "False"

def openingLine (s : Settings α) : String :=
  s!"Explorer initialized: strategy={s.strategy}, minimum_uniform="
    ++ Record.places 4 s.minimumUniform ++ ", normalize=" ++ flagText s.normalize

/-- An explorer for settings whose strategy is known, with the lines written. -/
def create (s : Settings α) : Except Error (Explorer α × List String) := do
  let _ ← Roster.ofSettings s
  return ({ settings := s, log := .ofSettings s }, [openingLine s])

/-- Makes a decision with the record of it. Where no override applies, what was found for the
default settings serves again. -/
def decide (e : Explorer α) (q : Request α β) (o : Overrides α) (clock : Clock α) :
    Except Error (Decision α β × Record α) := do
  match ← e.settings.override? o with
  | none => e.settings.decideBy (← e.strategy) e.digest q clock
  | some s => s.decide q clock

/-- Makes a decision, under overrides if there are any: the decision or the error, the explorer
after it, and the lines written. A failing call leaves no trace. -/
def choose (e : Explorer α) (q : Request α β) (o : Overrides α) (clock : Clock α) :
    Except Error (Decision α β) × Explorer α × List String :=
  match e.decide q o clock with
  | .error error => (.error error, e, [])
  | .ok (decision, record) =>
    let (log, lines) := e.log.add record
    (.ok decision, { e with log }, lines)

end Explorer

end SeededChoice
