import SeededChoice.Decimal.Digits
import SeededChoice.Double
import SeededChoice.Proofs.Explorer.Stages
import SeededChoice.Settings.Value

/-!
# Runs of an explorer

A caller holds an explorer and lists of actions, and makes one call after the other, some of which
fail. Every call is answered as by a fresh explorer, and the log tells of the calls that succeeded.
-/

namespace SeededChoice

variable {α β : Type} [Scalar α] [Numeral α] [Coercion α] [Roster α]

/-! ### One call -/

namespace Explorer

variable {e t : Explorer α} {q : Request α β} {o : Overrides α} {clock : Clock α}

/-- Logging is the last that a call does, and a call that fails does nothing. -/
theorem choose_cases (e : Explorer α) (q : Request α β) (o : Overrides α) (clock : Clock α) :
    (∃ error, e.choose q o clock = (.error error, e, [])) ∨
    ∃ s d, e.settings.resolve o = .ok s ∧ s.decide q clock = .ok (d, d.record s clock) ∧
      e.choose q o clock =
        (.ok d, { e with log := (e.log.add (d.record s clock)).1 },
          (e.log.add (d.record s clock)).2) := by
  rw [choose, decide_eq]
  cases decided : e.settings.resolve o >>= fun s => s.decide q clock with
  | error error => exact .inl ⟨error, rfl⟩
  | ok made =>
    obtain ⟨d, r⟩ := made
    obtain ⟨s, resolved, decided⟩ := bind_ok decided
    obtain ⟨-, -, -, -, -, -, -, -, -, -, -, -, -, -, rfl⟩ := Settings.decide_ok decided
    exact .inr ⟨s, d, resolved, decided, rfl⟩

/-- What a call gives depends on the default settings, not on the log. -/
theorem choose_congr (same : t.settings = e.settings) (q : Request α β) (o : Overrides α)
    (clock : Clock α) : (t.choose q o clock).1 = (e.choose q o clock).1 := by
  simp only [choose, decide_eq, same]
  split
  · rfl
  · rfl

/-- An explorer for the same settings whose log runs in the same mode. -/
structure Alike (e t : Explorer α) : Prop where
  settings : t.settings = e.settings
  diagnostic : t.log.diagnostic = e.log.diagnostic

theorem choose_alike (alike : Alike e t) : Alike e (t.choose q o clock).2.1 := by
  rcases choose_cases t q o clock with ⟨_, chosen⟩ | ⟨_, _, -, -, chosen⟩
  · rw [chosen]
    exact alike
  · rw [chosen]
    exact ⟨alike.settings, alike.diagnostic⟩

omit [Scalar α] [Coercion α] in
theorem create_ok {s : Settings α} {lines : List String} (created : create s = .ok (e, lines)) :
    e.settings = s ∧ e.log = .ofSettings s := by
  obtain ⟨_, -, created⟩ := bind_ok created
  obtain ⟨rfl, -⟩ := Prod.mk.inj (Except.ok.inj created)
  exact ⟨rfl, rfl⟩

end Explorer

/-! ### Sessions -/

/-- A call as a caller makes it. Its actions are the list held at a position, if it names one. -/
structure Call (α β : Type) [Coercion α] where
  request : Request α β
  list : Option Nat := none
  overrides : Overrides α := []
  clock : Clock α

def Call.asked (c : Call α β) (held : List (List β)) : Request α β :=
  { c.request with actions := c.list.bind (held[·]?) }

/-- A call that was made, with the lists that were held then and what it gave. -/
structure Event (α β : Type) [Coercion α] where
  call : Call α β
  held : List (List β)
  outcome : Except Error (Decision α β)

def Event.request (v : Event α β) : Request α β := v.call.asked v.held

/-- An explorer and the lists that its caller holds: its own, and those of decisions. -/
structure Session (α β : Type) [Numeral α] [Roster α] where
  explorer : Explorer α
  held : List (List β) := []

namespace Session

/-- Makes a call. The list of a decision is a new one. -/
def call (s : Session α β) (c : Call α β) : Event α β × Session α β :=
  let (outcome, explorer, _) := s.explorer.choose (c.asked s.held) c.overrides c.clock
  ({ call := c, held := s.held, outcome },
    { explorer, held := s.held ++ (outcome.toOption.bind Decision.actions).toList })

def run (s : Session α β) : List (Call α β) → List (Event α β) × Session α β
  | [] => ([], s)
  | c :: calls =>
    let (v, s) := s.call c
    let (events, s) := s.run calls
    (v :: events, s)

end Session

/-- A record for each call that succeeded, in order. Each is that of the decision under the settings
that were in force for the call. -/
inductive Logged (defaults : Settings α) : List (Event α β) → List (Record α) → Prop where
  | none : Logged defaults [] []
  | failed {v : Event α β} {events : List (Event α β)} {records : List (Record α)} {error : Error}
      (outcome : v.outcome = .error error) (rest : Logged defaults events records) :
      Logged defaults (v :: events) records
  | made {v : Event α β} {events : List (Event α β)} {records : List (Record α)}
      {d : Decision α β} {s : Settings α} {member : Roster.Member α} (outcome : v.outcome = .ok d)
      (resolved : defaults.resolve v.call.overrides = .ok s)
      (named : Roster.ofSettings s = .ok member) (used : d.strategy = Roster.name member)
      (rest : Logged defaults events records) :
      Logged defaults (v :: events) (d.record s v.call.clock :: records)

/-- An event as a fresh explorer would have it, with a copy of the actions in a new order. -/
structure Event.Fresh (e : Explorer α) (v : Event α β) : Prop where
  outcome : v.outcome = (e.choose v.request v.call.overrides v.call.clock).1
  actions : ∀ d, v.outcome = .ok d →
    d.actions = v.request.actions.map (Promotion.exchange · d.index)

namespace Session

variable {e : Explorer α} {s : Session α β} {c : Call α β}

theorem call_failed {error : Error} (failed : (s.call c).1.outcome = .error error) :
    (s.call c).2 = s := by
  rcases Explorer.choose_cases s.explorer (c.asked s.held) c.overrides c.clock with
    ⟨_, chosen⟩ | ⟨_, _, -, -, chosen⟩
  · rw [call, chosen]
    exact congrArg (Session.mk s.explorer) (List.append_nil s.held)
  · rw [call, chosen] at failed
    cases failed

theorem call_fresh (same : s.explorer.settings = e.settings) : (s.call c).1.Fresh e := by
  constructor
  · exact Explorer.choose_congr same (c.asked s.held) c.overrides c.clock
  · intro d chosen
    obtain ⟨_, _, -, decided⟩ := Explorer.choose_ok chosen
    obtain ⟨-, -, -, -, -, -, -, -, -, -, -, -, exchanged, -⟩ := Settings.decide_ok decided
    exact exchanged

theorem call_held : s.held <+: (s.call c).2.held := List.prefix_append _ _

/-- What a run leaves, told of a session that has gone on for some time. -/
theorem run_alike (calls : List (Call α β)) (alike : Explorer.Alike e s.explorer) :
    (s.run calls).1.map Event.call = calls ∧
    (∀ v ∈ (s.run calls).1, v.Fresh e ∧ s.held <+: v.held ∧ v.held <+: (s.run calls).2.held) ∧
    Explorer.Alike e (s.run calls).2.explorer ∧ s.held <+: (s.run calls).2.held := by
  induction calls generalizing s with
  | nil => exact ⟨rfl, by simp [run], alike, List.prefix_refl _⟩
  | cons c calls ih =>
    obtain ⟨called, fresh, after, held⟩ := ih (s := (s.call c).2) (Explorer.choose_alike alike)
    have kept : s.held <+: ((s.call c).2.run calls).2.held := call_held.trans held
    refine ⟨congrArg (c :: ·) called, ?_, after, kept⟩
    intro v listed
    rcases List.mem_cons.mp listed with rfl | listed
    · exact ⟨call_fresh alike.settings, List.prefix_refl _, kept⟩
    · obtain ⟨lawful, before, since⟩ := fresh v listed
      exact ⟨lawful, call_held.trans before, since⟩

/-- The records of a run come after those that there were. -/
theorem run_records (calls : List (Call α β)) (alike : Explorer.Alike e s.explorer) :
    ∃ records, Logged e.settings (s.run calls).1 records ∧
      (s.run calls).2.explorer.log.records =
        s.explorer.log.records ++ if e.log.diagnostic then records else [] := by
  induction calls generalizing s with
  | nil => exact ⟨[], .none, by simp [run]⟩
  | cons c calls ih =>
    obtain ⟨records, logged, appended⟩ := ih (s := (s.call c).2) (Explorer.choose_alike alike)
    rcases Explorer.choose_cases s.explorer (c.asked s.held) c.overrides c.clock with
      ⟨error, chosen⟩ | ⟨t, d, resolved, decided, chosen⟩
    · have outcome : (s.call c).1.outcome = .error error := congrArg Prod.fst chosen
      refine ⟨records, .failed outcome logged, ?_⟩
      rw [show (s.run (c :: calls)).2 = ((s.call c).2.run calls).2 from rfl, appended,
        call_failed outcome]
    · have outcome : (s.call c).1.outcome = .ok d := congrArg Prod.fst chosen
      obtain ⟨member, -, -, -, named, -, -, -, -, -, -, -, -, used, -⟩ :=
        Settings.decide_ok decided
      rw [alike.settings] at resolved
      refine ⟨d.record t c.clock :: records, .made outcome resolved named used logged, ?_⟩
      have left : (s.call c).2.explorer.log = (s.explorer.log.add (d.record t c.clock)).1 :=
        congrArg (fun chosen => chosen.2.1.log) chosen
      rw [show (s.run (c :: calls)).2 = ((s.call c).2.run calls).2 from rfl, appended, left,
        DecisionLog.add, alike.diagnostic]
      split
      · simp
      · simp

/-- However long an explorer is in use, every call gives what a fresh explorer for the same settings
would give. In diagnostic mode the records are those of the decisions made, otherwise there are
none. The default settings and the lists held stay as they are, and a call that fails leaves no
trace. -/
theorem run_as_fresh {defaults : Settings α} {lines : List String}
    (created : Explorer.create defaults = .ok (e, lines)) (held : List (List β))
    (calls : List (Call α β)) :
    ∃ events after, run { explorer := e, held } calls = (events, after) ∧
      events.map Event.call = calls ∧
      (∀ v ∈ events, v.Fresh e ∧ held <+: v.held ∧ v.held <+: after.held) ∧
      (∃ records, Logged defaults events records ∧
        after.explorer.log.records = if defaults.diagnostic then records else []) ∧
      after.explorer.settings = defaults ∧
      held <+: after.held ∧
      ∀ (c : Call α β) (error : Error), (after.call c).1.outcome = .error error →
        (after.call c).2 = after := by
  obtain ⟨rfl, log⟩ := Explorer.create_ok created
  have alike : Explorer.Alike e e := ⟨rfl, rfl⟩
  obtain ⟨called, fresh, after, kept⟩ := run_alike (s := { explorer := e, held }) calls alike
  obtain ⟨records, logged, appended⟩ := run_records (s := { explorer := e, held }) calls alike
  refine ⟨_, _, rfl, called, fresh, ⟨records, logged, ?_⟩, after.settings, kept, ?_⟩
  · rw [appended, log]
    rfl
  · intro c error failed
    exact call_failed failed

end Session

/-- Keeps records, and spreads half of the mass evenly. -/
def Settings.watched : Settings Float :=
  { Settings.standard with epsilon := 0.5, diagnostic := true }

def Session.ofPair : Session Float String where
  explorer := { settings := Settings.watched, log := .ofSettings Settings.watched }
  held := [["a", "b"]]

/-- The second of two actions is the best; then nothing is asked for; then the reordered actions are
voted on. -/
def Call.three : List (Call Float String) :=
  let clock := { timestamp := 0, duration := 1.5 }
  [{ request := { seed := .integer 7, topAction := .integer 1 }, list := some 0, clock },
    { request := { seed := .integer 7 }, clock },
    { request := { seed := .integer 8, votes := .list [.integer 1, .integer 1] }, list := some 1,
      overrides := [("explore_strategy", .text "bag")], clock }]

theorem Session.run_as_fresh_of_three :
    ∃ lines events after, Explorer.create Settings.watched = .ok (ofPair.explorer, lines) ∧
      ofPair.run Call.three = (events, after) ∧
      events.map (fun v => v.outcome.isOk) = [true, false, true] ∧
      (∀ v ∈ events, v.Fresh ofPair.explorer) ∧ after.explorer.log.records.length = 2 ∧
      Logged Settings.watched events after.explorer.log.records := by
  have created : Explorer.create Settings.watched =
      .ok (ofPair.explorer, [Explorer.openingLine Settings.watched]) := rfl
  have outcomes : (ofPair.run Call.three).1.map (fun v => v.outcome.isOk) =
      [true, false, true] := by
    decide +kernel
  have count : (ofPair.run Call.three).2.explorer.log.records.length = 2 := by
    decide +kernel
  obtain ⟨events, after, ran, -, fresh, ⟨records, logged, kept⟩, -⟩ :=
    run_as_fresh created ofPair.held Call.three
  rw [show ofPair.run Call.three = (events, after) from ran] at outcomes count
  refine ⟨_, events, after, created, ran, outcomes, fun v listed => (fresh v listed).1, count, ?_⟩
  rw [kept]
  exact logged

end SeededChoice
