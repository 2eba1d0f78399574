import SeededChoice.Decimal.Digits
import SeededChoice.Double
import SeededChoice.Proofs.Explorer.Run

/-!
# Overrides

A call under overrides decides as a new explorer for the resolved settings would, whether the
strategy and the digest were kept from before or are found anew. The log is another matter: it runs
as the default settings say, whatever a call overrides.
-/

namespace SeededChoice

variable {α β : Type}

/-- The record as it would be by another clock. -/
def Record.timed (r : Record α) (clock : Clock α) : Record α :=
  { r with timestamp := clock.timestamp, duration := clock.duration }

variable [Scalar α] [Numeral α] [Roster α]

/-! ### Decisions -/

omit [Numeral α] in
/-- The clock tells nothing but the two times of the record. -/
theorem Settings.decideBy_timed (s : Settings α) (member : Roster.Member α) (digest : String)
    (q : Request α β) (clock other : Clock α) :
    s.decideBy member digest q other =
      (s.decideBy member digest q clock).map fun (d, r) => (d, r.timed other) := by
  refine bind_eq_map fun n => bind_eq_map fun b => ?_
  exact bind_eq_map fun sample => bind_eq_map fun index => bind_eq_map fun actions =>
    bind_eq_map fun seed => rfl

theorem Settings.decide_timed (s : Settings α) (q : Request α β) (clock other : Clock α) :
    s.decide q other = (s.decide q clock).map fun (d, r) => (d, r.timed other) :=
  bind_eq_map fun member => s.decideBy_timed member s.digest q clock other

variable [Coercion α]

namespace Explorer

/-- Without overrides an explorer that was just made decides by the settings it was made for. Where
none can be made, a decision fails for the same reason. -/
theorem create_decide (s : Settings α) (q : Request α β) (clock : Clock α) :
    (do
      let (made, _) ← create s
      made.decide q [] clock) = s.decide q clock := by
  have resolved : s.resolve [] = .ok s := rfl
  have decided : ({ settings := s, log := .ofSettings s } : Explorer α).decide q [] clock =
      s.decide q clock := by
    rw [decide_eq, resolved]
    rfl
  calc
    _ = Roster.ofSettings s >>= fun _ =>
        ({ settings := s, log := .ofSettings s } : Explorer α).decide q [] clock := by
      rw [create, bind_assoc]
      rfl
    _ = Roster.ofSettings s >>= fun _ => s.decide q clock := by rw [decided]
    _ = s.decide q clock := bind_again

theorem create_choose (s : Settings α) (q : Request α β) (clock : Clock α) :
    (do
      let (made, _) ← create s
      (made.choose q [] clock).1) = (s.decide q clock).map Prod.fst := by
  rw [← create_decide]
  exact bind_eq_map fun (made, _) => made.choose_decided q [] clock

theorem decide_timed (e : Explorer α) (q : Request α β) (o : Overrides α) (clock other : Clock α) :
    e.decide q o other = (e.decide q o clock).map fun (d, r) => (d, r.timed other) := by
  rw [decide_eq, decide_eq]
  exact bind_eq_map fun s => s.decide_timed q clock other

/-- A call under overrides is decided as without any by a new explorer for the resolved settings, and
it fails for the same reason. The record of it, which is handed to the log, differs only in what the
clocks say. -/
theorem overrides_resolved_before {defaults : Settings α} {e : Explorer α} {lines : List String}
    (created : create defaults = .ok (e, lines)) (q : Request α β) (o : Overrides α)
    (clock other : Clock α) :
    (e.choose q o clock).1 =
      (do
        let s ← defaults.resolve o
        let (made, _) ← create s
        (made.choose q [] other).1) ∧
    (e.decide q o clock).map (fun (d, r) => (d, r.timed other)) =
      (do
        let s ← defaults.resolve o
        let (made, _) ← create s
        made.decide q [] other) := by
  obtain ⟨rfl, -⟩ := create_ok created
  simp only [create_choose, create_decide]
  constructor
  · have same : (e.decide q o other).map Prod.fst = (e.decide q o clock).map Prod.fst := by
      rw [e.decide_timed q o clock other]
      exact map_fst_map fun _ => rfl
    rw [choose_decided, ← same, decide_eq]
    exact (bind_eq_map fun s => rfl).symm
  · rw [← decide_timed, decide_eq]

end Explorer

/-- Votes for the second of two actions. -/
def Request.ofSecondVoted : Request Float String where
  seed := .integer 8
  votes := .list [.integer 1, .integer 1]
  actionCount := .integer 2

def Overrides.toBag : Overrides Float := [("explore_strategy", .text "bag")]

theorem Explorer.overrides_resolved_before_of_votes :
    create Settings.watched =
      .ok (Session.ofPair.explorer, [openingLine Settings.watched]) ∧
    ∃ d s made lines, (Session.ofPair.explorer.choose .ofSecondVoted .toBag
        { timestamp := 0, duration := 1.5 }).1 = .ok d ∧
      Settings.watched.resolve .toBag = .ok s ∧ create s = .ok (made, lines) ∧
      (made.choose .ofSecondVoted [] { timestamp := 60, duration := 2.5 }).1 = .ok d := by
  have created : create Settings.watched =
      .ok (Session.ofPair.explorer, [openingLine Settings.watched]) := rfl
  have decided : (Session.ofPair.explorer.choose .ofSecondVoted .toBag
      { timestamp := 0, duration := 1.5 }).1.isOk = true := by
    decide +kernel
  obtain ⟨d, decided⟩ := exists_ok decided
  obtain ⟨same, -⟩ := overrides_resolved_before created .ofSecondVoted .toBag
    { timestamp := 0, duration := 1.5 } { timestamp := 60, duration := 2.5 }
  rw [decided] at same
  obtain ⟨s, resolved, again⟩ := bind_ok same.symm
  obtain ⟨⟨made, lines⟩, makes, again⟩ := bind_ok again
  exact ⟨created, d, s, made, lines, decided, resolved, makes, again⟩

/-- Settings that name no strategy. -/
def Settings.misnamed : Settings Float := { Settings.watched with strategy := "greedy" }

/-- No explorer is made for settings that name no strategy, so an override that would name one comes
too late, although an explorer for the resolved settings decides. -/
theorem Explorer.misnamed_not_overridden :
    (do
      let (e, _) ← create Settings.misnamed
      (e.choose Request.ofSecondVoted .toBag { timestamp := 0, duration := 1.5 }).1) =
        .error (.unknownStrategy "greedy" (Registry.builtin (id : Strategy → Strategy)).names) ∧
    ∃ d, (do
      let s ← Settings.misnamed.resolve .toBag
      let (made, _) ← create s
      (made.choose Request.ofSecondVoted [] { timestamp := 0, duration := 1.5 }).1) = .ok d := by
  have decided : (do
      let s ← Settings.misnamed.resolve .toBag
      let (made, _) ← create s
      (made.choose Request.ofSecondVoted [] { timestamp := 0, duration := 1.5 }).1).isOk = true := by
    decide +kernel
  exact ⟨rfl, exists_ok decided⟩

/-! ### The log -/

section
variable {α β : Type} [Numeral α]

theorem head?_append_text {first : Char} {s : String} (begins : s.toList.head? = some first)
    (t : String) : (s ++ t).toList.head? = some first := by
  rw [String.toList_append, List.head?_append, begins]
  rfl

/-- The two kinds of line begin differently, whatever the record. -/
theorem Record.summaryLine_ne_fullLine (r : Record α) : r.summaryLine ≠ r.fullLine := by
  have summary : r.summaryLine.toList.head? = some 's' := by
    unfold summaryLine
    repeat apply head?_append_text
    rfl
  have full : r.fullLine.toList.head? = some 'd' := by
    unfold fullLine
    repeat apply head?_append_text
    rfl
  intro same
  rw [same, full] at summary
  cases summary

/-- Levels at which the same is written. -/
def DecisionLog.SameLevel (level other : String) : Prop :=
  (level = "summary" ↔ other = "summary") ∧ (level = "full" ↔ other = "full")

theorem DecisionLog.lines_eq_iff (r : Record α) (level other : String) :
    lines level r = lines other r ↔ SameLevel level other := by
  have differ := r.summaryLine_ne_fullLine
  unfold lines SameLevel
  grind

end

/-- An explorer whose log runs as settings say. -/
structure Explorer.Logs (s : Settings α) (e : Explorer α) : Prop where
  settings : e.settings = s
  level : e.log.level = s.logLevel
  diagnostic : e.log.diagnostic = s.diagnostic

section
variable {defaults : Settings α} {e : Explorer α} {s : Session α β}

omit [Scalar α] [Coercion α] in
theorem Explorer.create_logs {lines : List String} (created : create defaults = .ok (e, lines)) :
    e.Logs defaults := by
  obtain ⟨same, log⟩ := create_ok created
  exact ⟨same, by rw [log]; rfl, by rw [log]; rfl⟩

theorem Explorer.choose_logs (logs : e.Logs defaults) (q : Request α β) (o : Overrides α)
    (clock : Clock α) : (e.choose q o clock).2.1.Logs defaults := by
  rcases choose_cases e q o clock with ⟨_, chosen⟩ | ⟨_, _, -, -, chosen⟩
  · rw [chosen]
    exact logs
  · rw [chosen]
    exact ⟨logs.settings, logs.level, logs.diagnostic⟩

theorem Session.run_logs (calls : List (Call α β)) (logs : s.explorer.Logs defaults) :
    (s.run calls).2.explorer.Logs defaults := by
  induction calls generalizing s with
  | nil => exact logs
  | cons c calls ih => exact ih (Explorer.choose_logs logs (c.asked s.held) c.overrides c.clock)

/-- However long an explorer is in use, its records are kept and its lines are written as the default
settings say. What a call overrides about the log counts only where it says the same. -/
theorem Session.defaults_govern_log {lines : List String}
    (created : Explorer.create defaults = .ok (e, lines)) (held : List (List β))
    (calls : List (Call α β)) {t after : Explorer α}
    (reached : (run { explorer := e, held } calls).2.explorer = t) {q : Request α β}
    {o : Overrides α} {clock : Clock α} {d : Decision α β} {written : List String}
    (chosen : t.choose q o clock = (.ok d, after, written)) :
    ∃ s, defaults.resolve o = .ok s ∧
      after.log.records =
        t.log.records ++ (if defaults.diagnostic then [d.record s clock] else []) ∧
      written = DecisionLog.lines defaults.logLevel (d.record s clock) ∧
      (after.log.records = t.log.records ++ (if s.diagnostic then [d.record s clock] else []) ↔
        s.diagnostic = defaults.diagnostic) ∧
      (written = DecisionLog.lines s.logLevel (d.record s clock) ↔
        DecisionLog.SameLevel defaults.logLevel s.logLevel) := by
  have logs : t.Logs defaults := by
    rw [← reached]
    exact run_logs calls (Explorer.create_logs created)
  rcases Explorer.choose_cases t q o clock with ⟨_, failed⟩ | ⟨s, _, resolved, -, made⟩
  · cases chosen.symm.trans failed
  · obtain ⟨answered, left⟩ := Prod.mk.inj (chosen.symm.trans made)
    obtain ⟨rfl, rfl⟩ := Prod.mk.inj left
    obtain rfl := Except.ok.inj answered
    rw [logs.settings] at resolved
    have kept : (t.log.add (d.record s clock)).1.records =
        t.log.records ++ (if defaults.diagnostic then [d.record s clock] else []) := by
      rw [DecisionLog.add, logs.diagnostic]
      split
      · rfl
      · exact (List.append_nil _).symm
    have wrote : (t.log.add (d.record s clock)).2 =
        DecisionLog.lines defaults.logLevel (d.record s clock) := by
      rw [DecisionLog.add, logs.level]
    refine ⟨s, resolved, kept, wrote, ?_, ?_⟩
    · rw [kept, List.append_cancel_left_eq]
      cases defaults.diagnostic <;> cases s.diagnostic <;> simp
    · rw [wrote, DecisionLog.lines_eq_iff]

end

/-- The second of two actions is the best. -/
def Request.ofSecondBest : Request Float String where
  seed := .integer 7
  topAction := .integer 1
  actionCount := .integer 2

/-- Asks for no record and no line. -/
def Overrides.quiet : Overrides Float :=
  [("explore_diagnostic_mode", .flag false), ("explore_log_level", .text "none")]

theorem Session.defaults_govern_log_of_quiet :
    Explorer.create Settings.watched =
      .ok (ofPair.explorer, [Explorer.openingLine Settings.watched]) ∧
    ∃ d s after written, Settings.watched.resolve .quiet = .ok s ∧ s.diagnostic = false ∧
      ofPair.explorer.choose .ofSecondBest .quiet { timestamp := 0, duration := 1.5 } =
        (.ok d, after, written) ∧
      after.log.records = [d.record s { timestamp := 0, duration := 1.5 }] ∧
      written = [(d.record s { timestamp := 0, duration := 1.5 }).summaryLine] := by
  have created : Explorer.create Settings.watched =
      .ok (ofPair.explorer, [Explorer.openingLine Settings.watched]) := rfl
  have decided : (ofPair.explorer.choose .ofSecondBest .quiet
      { timestamp := 0, duration := 1.5 }).1.isOk = true := by
    decide +kernel
  have off : (Settings.watched.resolve .quiet).toOption.map Settings.diagnostic = some false := by
    decide +kernel
  obtain ⟨d, decided⟩ := exists_ok decided
  obtain ⟨s, resolved, kept, wrote, -⟩ := defaults_govern_log created ofPair.held [] rfl
    (Prod.ext decided rfl)
  rw [resolved] at off
  exact ⟨created, d, s, _, _, resolved, Option.some.inj off, Prod.ext decided rfl, kept, wrote⟩

/-- A call asks for no record and no line, and gets both. -/
theorem Session.quiet_call_logged :
    (Settings.watched.resolve .quiet).toOption.map (fun s => (s.diagnostic, s.logLevel)) =
      some (false, "none") ∧
    (ofPair.explorer.choose .ofSecondBest .quiet { timestamp := 0, duration := 1.5 }).1.isOk = true ∧
    (ofPair.explorer.choose .ofSecondBest .quiet
      { timestamp := 0, duration := 1.5 }).2.1.log.records.length = 1 ∧
    (ofPair.explorer.choose .ofSecondBest .quiet
      { timestamp := 0, duration := 1.5 }).2.2.length = 1 := by
  decide +kernel

end SeededChoice
