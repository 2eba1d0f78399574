import SeededChoice.Proofs.Explorer.Failures

/-!
# The skipped floor

A decision runs the floor only where its minimum is positive. For a minimum that the floor accepts
or finds too large this is the same as running it always. A minimum below zero, or one that is not a
number, would be refused by the floor, but is never shown to it.
-/

namespace SeededChoice

open Scalar

variable {α β : Type} [Scalar α]

/-! ### Decisions by any floor -/

section
variable [Numeral α]

/-- The distribution that a strategy generates for a request, before any floor. -/
def Settings.generated (s : Settings α) (strategy : Strategy) (q : Request α β) (n : Nat) :
    Except Error (Buffer α) := do
  let b ← Buffer.zeros n
  Fresh.perform (strategy.name ++ " generation") b
    (strategy.plan s q.topAction q.scores q.votes n)

def Settings.unfloored (s : Settings α) : Settings α := { s with minimumUniform := 0 }

/-- Runs the floor, whatever its minimum is. -/
def Settings.floored (s : Settings α) (b : Buffer α) : Except Error (Buffer α) :=
  Fresh.perform "enforce_minimum_probability" b
    (Floor.enforce (.real s.minimumUniform) s.updateZeros b)

/-- Runs the floor where its minimum is positive. -/
def Settings.flooredAbove (s : Settings α) (b : Buffer α) : Except Error (Buffer α) :=
  if 0 < s.minimumUniform then s.floored b else return b

/-- What is left of a decision over `n` actions when its distribution has been made. -/
def Settings.drawFrom (s : Settings α) (strategy : Strategy) (q : Request α β) (clock : Clock α)
    (n : Nat) (b : Buffer α) : Except Error (Decision α β × Record α) := do
  let (sample, b) := b.perform (.ok (s.sampling q.seed b))
  let sample ← sample
  let index ← Fresh.drawn "sampling" sample.status sample.index
  let actions ← q.actions.mapM fun actions => do
    let (status, promoted) := Promotion.promote actions index
    status.check "swap_chosen"
    return promoted
  let seed ← q.seed.expand
  let d : Decision α β :=
    { index, probability := b.entries.getD index 0, distribution := b.entries, seed,
      strategy := strategy.name, actions }
  return (d, { d.record s clock with actionCount := n })

/-- A decision whose distribution goes through a given floor. -/
def Settings.decideVia (s : Settings α) (floor : Buffer α → Except Error (Buffer α))
    (q : Request α β) (clock : Clock α) : Except Error (Decision α β × Record α) := do
  let strategy ← Strategy.ofSettings s
  let n ← q.checkedSize
  let b ← floor (← s.generated strategy q n)
  s.drawFrom strategy q clock n b

omit [Numeral α] in
theorem Settings.distribution_eq (s : Settings α) (strategy : Strategy) (q : Request α β) (n : Nat) :
    s.distribution strategy q n = s.generated strategy q n >>= s.flooredAbove := by
  rw [generated, bind_assoc]
  rfl

theorem Settings.decide_eq_via (s : Settings α) (q : Request α β) (clock : Clock α) :
    s.decide q clock = s.decideVia s.flooredAbove q clock := by
  unfold decide decideVia decideBy
  simp only [distribution_eq, bind_assoc]
  rfl

/-- The strategy of settings generates a distribution for a request. -/
structure Settings.Generates (s : Settings α) (q : Request α β) (strategy : Strategy) (n : Nat)
    (b : Buffer α) : Prop where
  named : Strategy.ofSettings s = .ok strategy
  sized : q.checkedSize = .ok n
  generated : s.generated strategy q n = .ok b

section
variable {s : Settings α} {q : Request α β} {strategy : Strategy} {n : Nat} {b : Buffer α}
  {clock : Clock α}

theorem Settings.Generates.decideVia (generates : s.Generates q strategy n b)
    (floor : Buffer α → Except Error (Buffer α)) (clock : Clock α) :
    s.decideVia floor q clock = floor b >>= s.drawFrom strategy q clock n := by
  rw [Settings.decideVia, generates.named]
  simp only [bind, Except.bind, generates.sized, generates.generated]

section
variable (generates : s.Generates q strategy n b) (small : ¬ 0 < s.minimumUniform)
include generates small

omit [Numeral α] in
theorem Settings.Generates.distributed : s.distribution strategy q n = .ok b := by
  rw [distribution_eq, generates.generated]
  exact if_neg small

theorem Settings.Generates.decide (clock : Clock α) :
    s.decide q clock = s.drawFrom strategy q clock n b := by
  rw [decide_eq_via, generates.decideVia, flooredAbove, if_neg small]
  rfl

end

/-- What settings draw depends on how they sample; the rest of them is told in the record only. -/
theorem Settings.drawFrom_map {t : Settings α} (same : t.normalize = s.normalize) :
    t.drawFrom strategy q clock n b = (s.drawFrom strategy q clock n b).map fun (d, _) =>
      (d, { d.record t clock with actionCount := n }) := by
  unfold drawFrom sampling
  rw [same]
  exact bind_eq_map fun sample => bind_eq_map fun index => bind_eq_map fun actions =>
    bind_eq_map fun seed => rfl

/-- Floors that do the same to what is generated make the same decisions. -/
theorem Settings.decideVia_congr {floor other : Buffer α → Except Error (Buffer α)}
    (same : ∀ strategy n b, s.Generates q strategy n b → floor b = other b) :
    s.decideVia floor q clock = s.decideVia other q clock := by
  unfold decideVia
  cases named : Strategy.ofSettings s with
  | error error => rfl
  | ok strategy =>
    cases sized : q.checkedSize with
    | error error => rfl
    | ok n =>
      cases generated : s.generated strategy q n with
      | error error => simp only [bind, Except.bind, generated]
      | ok b =>
        have floored := same strategy n b ⟨named, sized, generated⟩
        simp only [bind, Except.bind, generated, floored]

end

variable [Coercion α]

/-- What a call answers and leaves, once its decision is made or has failed. -/
def Explorer.tell (e : Explorer α) (made : Except Error (Decision α β × Record α)) :
    Except Error (Decision α β) × Explorer α × List String :=
  match made with
  | .error error => (.error error, e, [])
  | .ok (decision, record) =>
    let (log, lines) := e.log.add record
    (.ok decision, { e with log }, lines)

/-- Makes a decision whose distribution goes through the floor whatever its minimum is. -/
def Explorer.chooseFlooring (e : Explorer α) (q : Request α β) (o : Overrides α)
    (clock : Clock α) : Except Error (Decision α β) × Explorer α × List String :=
  e.tell do
    let s ← e.settings.resolve o
    s.decideVia s.floored q clock

section
variable {e : Explorer α} {s : Settings α} {o : Overrides α} {error : Error}

theorem Explorer.choose_eq_tell (q : Request α β) (clock : Clock α) :
    e.choose q o clock =
      e.tell (e.settings.resolve o >>= fun s => s.decideVia s.flooredAbove q clock) := by
  simp only [← Settings.decide_eq_via, ← decide_eq]
  rfl

theorem Explorer.chooseFlooring_failed {q : Request α β} {clock : Clock α}
    (resolved : e.settings.resolve o = .ok s)
    (failed : s.decideVia s.floored q clock = .error error) :
    (e.chooseFlooring q o clock).1 = .error error := by
  simp only [chooseFlooring, resolved, bind, Except.bind, failed, tell]

theorem Explorer.choose_failed {q : Request α β} {clock : Clock α}
    (resolved : e.settings.resolve o = .ok s) (failed : s.decide q clock = .error error) :
    (e.choose q o clock).1 = .error error := by
  simp only [choose, decide_eq, resolved, bind, Except.bind, failed]

end

end

/-! ### What is generated -/

/-- A request with no more votes than can be addressed. -/
def Request.FewVotes (q : Request α β) : Prop :=
  ∀ votes, q.votes.toIndexes = .ok votes → votes.length ≤ Buffer.capacity

theorem Fresh.perform_planned {operation : String} {b after : Buffer α}
    {plan : Except Error (Planned Status α)} (done : perform operation b plan = .ok after) :
    ∃ p, plan = .ok p := by
  cases plan with
  | error error => cases done
  | ok p => exact ⟨p, rfl⟩

theorem Generator.greedy_read {epsilon : α} {given : Argument α} {clamp : Bool} {n : Nat}
    {operation : String} {b after : Buffer α}
    (done : Fresh.perform operation b (greedy (.real epsilon) given clamp n) = .ok after) :
    ∃ top, given.toIndex = .ok top := by
  cases read : given.toIndex with
  | ok top => exact ⟨top, rfl⟩
  | error error =>
    simp only [greedy, Argument.toReal, read, bind, Except.bind] at done
    split at done
    · cases done
    · cases done

section
variable [HasValue α] [NearestScalar α] {s : Settings α} {q : Request α β} {strategy : Strategy}
  {n : Nat} {b after : Buffer α}
  (unsigned : strategy = .softmax → ∀ x : α, ¬ exp x < 0) (few : q.FewVotes)
include unsigned few

theorem Strategy.perform_holds (fresh : b.IsFresh) (length : b.entries.length = n)
    (short : n < 2 ^ 60)
    (performed : Fresh.perform (strategy.name ++ " generation") b
      (strategy.plan s q.topAction q.scores q.votes n) = .ok after) : after.Holds 2 n := by
  cases strategy with
  | epsilonGreedy =>
    simp only [plan] at performed
    split at performed
    · cases performed
    · obtain ⟨top, read⟩ := Generator.greedy_read performed
      exact (Generator.greedy_follows fresh length short read).kind_of_ok performed
  | softmax =>
    simp only [plan] at performed
    split at performed
    · cases performed
    · obtain ⟨p, planned⟩ := Fresh.perform_planned performed
      obtain ⟨scores, read, -⟩ := bind_ok planned
      exact (Generator.softmax_follows fresh length short (unsigned rfl) read).kind_of_ok performed
  | bag =>
    simp only [plan] at performed
    split at performed
    · cases performed
    · obtain ⟨p, planned⟩ := Fresh.perform_planned performed
      obtain ⟨votes, read, -⟩ := bind_ok planned
      have counted : votes.length ≤ 2 ^ 60 := (few votes read).trans (by decide)
      exact (Generator.bag_follows fresh length short read counted).kind_of_ok performed

/-- Whatever a strategy generates is a row of finite numbers that are not large. -/
theorem Settings.generated_holds (generated : s.generated strategy q n = .ok b) :
    b.Holds 2 n := by
  obtain ⟨zeros, made, performed⟩ := bind_ok generated
  obtain ⟨fresh, length, short⟩ := (Buffer.zeros_follows n).kind_of_ok made
  exact Strategy.perform_holds unsigned few fresh length short performed

end

/-! ### The floor at its ends -/

theorem Settings.floored_outside {s : Settings α} (outside : inUnitInterval s.minimumUniform = false)
    (b : Buffer α) : s.floored b = .error (.outOfRange "enforce_minimum_probability") :=
  Fresh.perform_outOfRange (Floor.enforce_outside outside)

section
variable [HasValue α] {minimum : α} {n : Nat} {b : Buffer α} {t : ℝ}

/-- A floor of zero has nothing to do. -/
theorem Floor.enforce_zero (holds : b.Holds t n) (zeros : Bool)
    (inside : inUnitInterval minimum = true) (zero : (minimum == 0) = true) :
    enforce (.real minimum) zeros b = .ok (.accept .keep) := by
  have nonempty : b.length ≠ 0 := by
    rw [Buffer.length_flat holds.fresh.2, holds.length]
    exact holds.positive.ne'
  have finite : b.entries.all isFinite = true :=
    List.all_eq_true.mpr fun x listed => (holds.each x listed).finite
  simp [enforce, Argument.toReal, bind, Except.bind, nonempty, inside, finite, zero, pure,
    Except.pure]

end

section
variable [HasValue α] [NearestScalar α] [DefiniteScalar α] {s : Settings α} {b : Buffer α}
  {t : ℝ} {n : Nat}

/-- Where the minimum is not below zero, nothing comes of skipping the floor. -/
theorem Settings.flooredAbove_eq (least : 0 ≤ s.minimumUniform) (holds : b.Holds t n) :
    s.flooredAbove b = s.floored b := by
  unfold flooredAbove
  split
  · rfl
  · rename_i small
    have zero := DefiniteScalar.beq_zero least small
    have most := OrderedScalar.le_trans (ComparableScalar.le_of_beq zero) OrderedScalar.zero_le_one
    have inside := inUnitInterval_iff.mpr ⟨least, most⟩
    rw [floored, Floor.enforce_zero holds s.updateZeros inside zero]
    rfl

end

/-! ### Calls -/

section
variable [HasValue α] [NearestScalar α] [Numeral α] [Coercion α] {e : Explorer α} {s : Settings α}
  {q : Request α β} {o : Overrides α} {strategy : Strategy} {n : Nat} {b : Buffer α}
  (resolved : e.settings.resolve o = .ok s)
include resolved

omit [HasValue α] [NearestScalar α] in
/-- With the floor always run, no minimum outside the unit interval gets by. -/
theorem Explorer.chooseFlooring_outside (generates : s.Generates q strategy n b)
    (outside : inUnitInterval s.minimumUniform = false) (clock : Clock α) :
    (e.chooseFlooring q o clock).1 = .error (.outOfRange "enforce_minimum_probability") := by
  apply chooseFlooring_failed resolved
  rw [generates.decideVia, Settings.floored_outside outside]
  rfl

/-- A minimum that is not positive counts as zero. -/
theorem Explorer.choose_ignores (generates : s.Generates q strategy n b)
    (small : ¬ 0 < s.minimumUniform) (clock : Clock α) :
    (e.choose q o clock).1 = (s.unfloored.decide q clock).map Prod.fst := by
  have other : s.unfloored.Generates q strategy n b :=
    ⟨generates.named, generates.sized, generates.generated⟩
  have whole : e.decide q o clock = s.drawFrom strategy q clock n b := by
    rw [decide_eq, resolved, ← generates.decide small]
    rfl
  rw [choose_decided, whole, other.decide (OrderedScalar.lt_irrefl 0),
    Settings.drawFrom_map (s := s) (t := s.unfloored) rfl]
  symm
  exact map_fst_map fun _ => rfl

/-- Once the strategy has succeeded, only the seed can still be refused. -/
theorem Explorer.choose_generated (generates : s.Generates q strategy n b) (holds : b.Holds 2 n)
    (small : ¬ 0 < s.minimumUniform) (clock : Clock α) :
    (∀ start, q.seed.expand = .ok start →
      ∃ d, (e.choose q o clock).1 = .ok d ∧ d.seed = start) ∧
    ∀ error, q.seed.expand = .error error →
      (e.choose q o clock).1 = .error (.outOfRange "sampling") := by
  have distributed := generates.distributed small
  constructor
  · intro start expanded
    obtain ⟨d, record, decided, expansion⟩ := Settings.decide_held generates.named generates.sized
      distributed holds.wide expanded clock
    exact ⟨d, choose_done resolved decided, expansion⟩
  · intro error rejected
    exact choose_failed resolved
      (Settings.decide_refused generates.named generates.sized distributed rejected clock)

end

section
variable [HasValue α] [NearestScalar α] [DefiniteScalar α] [Numeral α] [Coercion α]

/-- To run the floor only where its minimum is positive is the same as to run it always exactly if
no distribution is generated under a minimum below zero or one that is not a number. The floor
would refuse such a minimum; skipped, it counts as zero, and there is a decision for every seed that
can be expanded. -/
theorem Explorer.shortcut_agrees_iff (e : Explorer α) (q : Request α β) (o : Overrides α)
    (clock : Clock α) (few : q.FewVotes)
    (unsigned : ∀ s, e.settings.resolve o = .ok s → Strategy.ofSettings s = .ok .softmax →
      ∀ x : α, ¬ exp x < 0) :
    (e.choose q o clock = e.chooseFlooring q o clock ↔
      ∀ s strategy n b, e.settings.resolve o = .ok s → s.Generates q strategy n b →
        0 ≤ s.minimumUniform) ∧
    ∀ s strategy n b, e.settings.resolve o = .ok s → s.Generates q strategy n b →
      (¬ (0 ≤ s.minimumUniform ∧ s.minimumUniform ≤ 1) →
        (e.chooseFlooring q o clock).1 = .error (.outOfRange "enforce_minimum_probability")) ∧
      (¬ 0 ≤ s.minimumUniform →
        (e.choose q o clock).1 = (s.unfloored.decide q clock).map Prod.fst ∧
        (∀ start, q.seed.expand = .ok start →
          ∃ d, (e.choose q o clock).1 = .ok d ∧ d.seed = start) ∧
        ∀ error, q.seed.expand = .error error →
          (e.choose q o clock).1 = .error (.outOfRange "sampling")) := by
  have holds {s : Settings α} {strategy : Strategy} {n : Nat} {b : Buffer α}
      (resolved : e.settings.resolve o = .ok s) (generates : s.Generates q strategy n b) :
      b.Holds 2 n := by
    refine Settings.generated_holds (fun weighed => ?_) few generates.generated
    exact unsigned s resolved (weighed ▸ generates.named)
  have refused {s : Settings α} {strategy : Strategy} {n : Nat} {b : Buffer α}
      (resolved : e.settings.resolve o = .ok s) (generates : s.Generates q strategy n b)
      (outside : ¬ (0 ≤ s.minimumUniform ∧ s.minimumUniform ≤ 1)) :
      (e.chooseFlooring q o clock).1 = .error (.outOfRange "enforce_minimum_probability") := by
    rw [← inUnitInterval_iff, Bool.not_eq_true] at outside
    exact chooseFlooring_outside resolved generates outside clock
  have small {s : Settings α} (below : ¬ 0 ≤ s.minimumUniform) : ¬ 0 < s.minimumUniform :=
    fun positive => below (ComparableScalar.le_of_lt positive)
  refine ⟨⟨fun same s strategy n b resolved generates => ?_, fun least => ?_⟩,
    fun s strategy n b resolved generates => ⟨refused resolved generates, fun below =>
      ⟨choose_ignores resolved generates (small below) clock,
        choose_generated resolved generates (holds resolved generates) (small below) clock⟩⟩⟩
  · by_contra below
    have failed := refused resolved generates fun unit => below unit.1
    obtain ⟨made, rejected⟩ :=
      choose_generated resolved generates (holds resolved generates) (small below) clock
    rw [← same] at failed
    cases expanded : q.seed.expand with
    | ok start =>
      obtain ⟨d, chosen, -⟩ := made start expanded
      cases chosen.symm.trans failed
    | error error =>
      have other := (rejected error expanded).symm.trans failed
      simp at other
  · rw [choose_eq_tell, chooseFlooring]
    cases resolved : e.settings.resolve o with
    | error error => rfl
    | ok s =>
      have agree : s.decideVia s.flooredAbove q clock = s.decideVia s.floored q clock :=
        Settings.decideVia_congr fun strategy n b generates =>
          Settings.flooredAbove_eq (least s strategy n b resolved generates)
            (holds resolved generates)
      exact congrArg e.tell agree

end

/-- Asks for a floor. -/
def Explorer.raising (minimum : Float) : Explorer Float where
  settings := { Settings.standard with minimumUniform := minimum }
  log := .ofSettings .standard

theorem Explorer.shortcut_agrees_iff_of_three :
    (raising 0).choose (.ofTop 1) [] { timestamp := 0, duration := 0 } =
      (raising 0).chooseFlooring (.ofTop 1) [] { timestamp := 0, duration := 0 } ∧
    (∃ d, ((raising (-0.5)).choose (.ofTop 1) [] { timestamp := 0, duration := 0 }).1 = .ok d) ∧
    ((raising (-0.5)).chooseFlooring (.ofTop 1) [] { timestamp := 0, duration := 0 }).1 =
      .error (.outOfRange "enforce_minimum_probability") := by
  have few : (Request.ofTop 1).FewVotes := nofun
  have resolved (minimum : Float) : (raising minimum).settings.resolve [] =
    .ok { Settings.standard with minimumUniform := minimum } := rfl
  have named (minimum : Float) :
      Strategy.ofSettings { Settings.standard with minimumUniform := minimum } =
        .ok .epsilonGreedy := rfl
  have unweighed (minimum : Float) (s : Settings Float)
      (same : (raising minimum).settings.resolve [] = .ok s)
      (softmax : Strategy.ofSettings s = .ok .softmax) (x : Float) : ¬ exp x < 0 := by
    obtain rfl := Except.ok.inj ((resolved minimum).symm.trans same)
    cases (named minimum).symm.trans softmax
  refine ⟨?_, ?_⟩
  · apply (shortcut_agrees_iff _ _ _ _ few (unweighed 0)).1.mpr
    intro s strategy n b same _
    obtain rfl := Except.ok.inj ((resolved 0).symm.trans same)
    decide +kernel
  · have made : ((raising (-0.5)).settings.generated .epsilonGreedy (Request.ofTop 1) 3).isOk =
        true := by
      decide +kernel
    obtain ⟨b, generated⟩ := exists_ok made
    have below : ¬ (0 : Float) ≤ -0.5 := by decide +kernel
    obtain ⟨refused, skipped⟩ := (shortcut_agrees_iff (raising (-0.5)) (.ofTop 1) []
      { timestamp := 0, duration := 0 } few (unweighed (-0.5))).2 _ .epsilonGreedy 3 b
        (resolved (-0.5)) ⟨named (-0.5), rfl, generated⟩
    obtain ⟨-, decided, -⟩ := skipped below
    obtain ⟨d, chosen, -⟩ := decided 7 rfl
    exact ⟨⟨d, chosen⟩, refused fun unit => below unit.1⟩

/-- A floor below zero is not refused, nor is one that is not a number, although the floor itself
refuses both. -/
theorem Explorer.no_floor_refused :
    ((raising (-0.5)).choose (.ofTop 1) [] { timestamp := 0, duration := 0 }).1.isOk = true ∧
    ((raising (-0.5)).chooseFlooring (.ofTop 1) [] { timestamp := 0, duration := 0 }).1 =
      .error (.outOfRange "enforce_minimum_probability") ∧
    ((raising nan).choose (.ofTop 1) [] { timestamp := 0, duration := 0 }).1.isOk = true ∧
    ((raising nan).chooseFlooring (.ofTop 1) [] { timestamp := 0, duration := 0 }).1 =
      .error (.outOfRange "enforce_minimum_probability") := by
  exact ⟨by decide +kernel, rfl, by decide +kernel, rfl⟩

end SeededChoice
