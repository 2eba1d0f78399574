import SeededChoice.Proofs.Distribution.Votes
import SeededChoice.Proofs.Double.Operations
import SeededChoice.Proofs.Exact.Order
import SeededChoice.Proofs.Explorer.Rules
import SeededChoice.Proofs.Explorer.Stages
import SeededChoice.Proofs.Floor.Bounded
import SeededChoice.Proofs.Sampler.Agreement
import SeededChoice.Settings.Value

/-!
# Failures

The rules decide how a request is refused, and where none applies, there is a decision. In
particular the checks of the floor and of the sampler never refuse what a strategy has generated.
-/

namespace SeededChoice

open Scalar HasValue

theorem Generator.resolveTop_eq_none_iff {top : Int} {clamp : Bool} {n : Nat} :
    resolveTop top clamp n = none ↔ top < 0 ∨ ((n : Int) ≤ top ∧ clamp = false) := by
  unfold resolveTop
  split
  · rename_i negative
    simp [negative]
  split
  · simp only [reduceCtorEq, false_iff]
    omega
  cases clamp with
  | true =>
    simp only [if_true, reduceCtorEq, and_false, or_false, false_iff]
    omega
  | false =>
    simp only [Bool.false_eq_true, if_false, true_iff, and_true]
    omega

variable {α β : Type} [Scalar α]

/-! ### Distributions -/

section
variable [HasValue α]

/-- A fresh buffer of `n` numbers within a bound. -/
structure Buffer.Holds (t : ℝ) (n : Nat) (b : Buffer α) : Prop where
  fresh : b.IsFresh
  length : b.entries.length = n
  positive : 0 < n
  short : n < 2 ^ 60
  each : ∀ x ∈ b.entries, Within t x

omit [HasValue α] in
theorem Buffer.zeros_follows (n : Nat) :
    Follows (Buffer.zeros n : Except Error (Buffer α))
      [⟨decide (Buffer.capacity < n), .tooManyEntries⟩]
      fun b => b.IsFresh ∧ b.entries.length = n ∧ n < 2 ^ 60 := by
  refine .cons (fun large => ?_) fun fits => ?_
  · have beyond : ¬ n ≤ Buffer.capacity := not_le.mpr (of_decide_eq_true large)
    rw [zeros, if_neg beyond]
  · have inside : n ≤ Buffer.capacity := not_lt.mp (of_decide_eq_false fits)
    have made : (Buffer.zeros n : Except Error (Buffer α)) = .ok (ofList (List.replicate n 0)) :=
      if_pos inside
    rw [made]
    exact .done ⟨ofList_isFresh _, List.length_replicate, Nat.lt_of_le_of_lt inside (by decide)⟩

section
variable {operation : String} {b : Buffer α} {n : Nat} {plan : Except Error (Planned Status α)}
  {t : ℝ}

omit [HasValue α] in
theorem Fresh.perform_outOfRange (planned : plan = .ok (.refuse .badRange)) :
    Fresh.perform operation b plan = .error (.outOfRange operation) := by
  rw [planned]
  rfl

omit [HasValue α] in
theorem Fresh.perform_sizesDiffer (planned : plan = .ok (.refuse .sizeMismatch)) :
    Fresh.perform operation b plan = .error (.sizesDiffer operation) := by
  rw [planned]
  rfl

variable (fresh : b.IsFresh) (length : b.entries.length = n) (short : n < 2 ^ 60)
include fresh length short

theorem Fresh.perform_leaves {u : Update α} (positive : 0 < n) (leaves : u.Leaves t b.entries)
    (planned : plan = .ok (.accept u)) :
    Follows (Fresh.perform operation b plan) [] (Buffer.Holds t n) := by
  have performed : b.perform plan = (.ok .success, .ofList (u.applied b.entries)) := by
    rw [planned]
    exact fresh.perform_fits leaves.fits
  rw [perform_made performed]
  have kept := (Update.length_applied leaves.fits).trans length
  exact .done ⟨Buffer.ofList_isFresh _, kept, positive, short, leaves.within⟩

variable [NearestScalar α]

/-! ### Strategies -/

theorem Generator.greedy_follows {epsilon : α} {given : Argument α} {top : Int} {clamp : Bool}
    (read : given.toIndex = .ok top) :
    Follows (Fresh.perform operation b (Generator.greedy (.real epsilon) given clamp n))
      [⟨decide (n = 0 ∨ ¬ (0 ≤ epsilon ∧ epsilon ≤ 1) ∨ top < 0 ∨
        ((n : Int) ≤ top ∧ clamp = false)), .outOfRange operation⟩] (Buffer.Holds 2 n) := by
  have planned : Generator.greedy (.real epsilon) given clamp n =
      if n = 0 ∨ ¬ (0 ≤ epsilon ∧ epsilon ≤ 1) then .ok (.refuse .badRange)
      else
        (Generator.resolveTop top clamp n).elim (.ok (.refuse .badRange)) fun top =>
          .ok (.accept (.assign (Generator.greedyValues epsilon top n))) := by
    have same : (n = 0 || !inUnitInterval epsilon) = true ↔
        n = 0 ∨ ¬ (0 ≤ epsilon ∧ epsilon ≤ 1) := by
      simp [← inUnitInterval_iff]
    simp only [Generator.greedy, Argument.toReal, read, same, bind, Except.bind]
    cases Generator.resolveTop top clamp n with
    | none => rfl
    | some top => rfl
  refine .cons (fun refused => ?_) fun accepted => ?_
  · have due := of_decide_eq_true refused
    apply Fresh.perform_outOfRange
    rw [planned]
    split
    · rfl
    · rename_i valid
      rw [← or_assoc] at due
      rw [Generator.resolveTop_eq_none_iff.mpr (due.resolve_left valid), Option.elim_none]
  · have valid := of_decide_eq_false accepted
    rw [← or_assoc, not_or, ← Generator.resolveTop_eq_none_iff] at valid
    obtain ⟨checked, resolved⟩ := valid
    obtain ⟨i, resolved⟩ := Option.ne_none_iff_exists'.mp resolved
    rw [if_neg checked, resolved] at planned
    obtain ⟨nonzero, unit⟩ := not_or.mp checked
    obtain ⟨least, most⟩ := not_not.mp unit
    have positive := Nat.pos_of_ne_zero nonzero
    have leaves : (Update.assign (Generator.greedyValues epsilon i n)).Leaves 2 b.entries := by
      subst length
      exact Generator.greedyValues_leaves (within_unit least most) positive short
    exact Fresh.perform_leaves fresh length short positive leaves planned

theorem Generator.softmax_follows {rate : α} {given : Argument α} {scores : List α}
    (unsigned : ∀ x : α, ¬ exp x < 0) (read : given.toWeights = .ok scores) :
    Follows (Fresh.perform operation b (Generator.softmax (.real rate) given n))
      [⟨decide (scores.length = 0 ∨ n = 0), .outOfRange operation⟩,
        ⟨decide (scores.length ≠ n), .sizesDiffer operation⟩,
        ⟨!isFinite rate || scores.any isNaN, .outOfRange operation⟩] (Buffer.Holds 2 n) := by
  have planned : Generator.softmax (.real rate) given n =
      if scores.length = 0 ∨ n = 0 then .ok (.refuse .badRange)
      else if scores.length ≠ n then .ok (.refuse .sizeMismatch)
      else if !isFinite rate || scores.any isNaN then .ok (.refuse .badRange)
      else if rate == 0 then .ok (.accept (.fill (.real (Generator.uniformShare n))))
      else .ok (.accept (Generator.softmaxUpdate rate scores n)) := by
    have same : (scores.isEmpty || n = 0) = true ↔ scores.length = 0 ∨ n = 0 := by
      simp
    simp only [Generator.softmax, Argument.toReal, read, same, bind, Except.bind]
    rfl
  refine .cons (fun missing => ?_) fun given => .cons (fun differ => ?_) fun same =>
    .cons (fun unusable => ?_) fun usable => ?_
  · apply Fresh.perform_outOfRange
    rw [planned, if_pos (of_decide_eq_true missing)]
  · apply Fresh.perform_sizesDiffer
    rw [planned, if_neg (of_decide_eq_false given), if_pos (of_decide_eq_true differ)]
  · apply Fresh.perform_outOfRange
    rw [planned, if_neg (of_decide_eq_false given), if_neg (of_decide_eq_false same),
      if_pos unusable]
  · have size : scores.length = n := not_not.mp (of_decide_eq_false same)
    obtain ⟨listed, nonzero⟩ := not_or.mp (of_decide_eq_false given)
    have positive := Nat.pos_of_ne_zero nonzero
    rw [if_neg (of_decide_eq_false given), if_neg (of_decide_eq_false same),
      if_neg (ne_true_of_eq_false usable)] at planned
    by_cases flat : rate == 0
    · rw [if_pos flat] at planned
      have share := (Generator.uniformShare_within (α := α) positive short).mono one_le_two
      exact Fresh.perform_leaves fresh length short positive (Update.leaves_fill share) planned
    · rw [if_neg flat] at planned
      have leaves : (Generator.softmaxUpdate rate scores n).Leaves 1 b.entries := by
        subst length
        exact Generator.softmaxUpdate_leaves unsigned (List.ne_nil_of_length_pos
          (Nat.pos_of_ne_zero listed)) size short
      exact Fresh.perform_leaves fresh length short positive (leaves.mono one_le_two) planned

theorem Generator.bag_follows {given : Argument α} {votes : List Int}
    (read : given.toIndexes = .ok votes) (few : votes.length ≤ 2 ^ 60) :
    Follows (Fresh.perform operation b (Generator.bag given n))
      [⟨decide (votes.length = 0 ∨ n = 0 ∨ ∃ v ∈ votes, v < 0), .outOfRange operation⟩,
        ⟨decide (∃ v ∈ votes, (n : Int) ≤ v), .sizesDiffer operation⟩] (Buffer.Holds 2 n) := by
  have planned := Generator.bag_read (n := n) read
  refine .cons (fun outside => ?_) fun valid => .cons (fun beyond => ?_) fun below => ?_
  · apply Fresh.perform_outOfRange
    rw [planned, if_pos (of_decide_eq_true outside)]
  · apply Fresh.perform_sizesDiffer
    rw [planned, if_neg (of_decide_eq_false valid), if_pos (of_decide_eq_true beyond)]
  · obtain ⟨listed, counted⟩ := not_or.mp (of_decide_eq_false valid)
    obtain ⟨nonzero, -⟩ := not_or.mp counted
    rw [if_neg (of_decide_eq_false valid), if_neg (of_decide_eq_false below)] at planned
    have leaves : (Update.assign ((Generator.tally votes n).map fun count =>
        (ofNat count / ofNat votes.length : α))).Leaves 1 b.entries := by
      subst length
      exact Generator.tally_leaves (List.ne_nil_of_length_pos (Nat.pos_of_ne_zero listed)) few
    exact Fresh.perform_leaves fresh length short (Nat.pos_of_ne_zero nonzero)
      (leaves.mono one_le_two) planned

end

omit [HasValue α] in
/-- A strategy is not asked without its input. -/
theorem Strategy.perform_present {ρ : Type} {operation : String} {b : Buffer α}
    {plan : Except Error (Planned Status α)} {rules : List Rule} {kind : Buffer α → Prop}
    {e : Error} {a : Argument α} {given : Option ρ} (absent : a.isAbsent = given.isNone)
    (present : ∀ x, given = some x → Follows (Fresh.perform operation b plan) rules kind) :
    Follows (Fresh.perform operation b (if a.isAbsent then .error e else plan))
      (⟨!given.isSome, e⟩ :: rules) kind := by
  rw [absent]
  cases given with
  | none => exact .cons (fun _ => rfl) nofun
  | some x => exact .cons nofun fun _ => present x rfl

variable [NearestScalar α] {s : Settings α} {q : Request α β} {r : Reading α} {b : Buffer α}
  {n : Nat}

theorem Strategy.perform_follows (strategy : Strategy)
    (unsigned : strategy = .softmax → ∀ x : α, ¬ exp x < 0) (reads : q.Reads r) (fresh : b.IsFresh)
    (length : b.entries.length = n) (short : n < 2 ^ 60) :
    Follows (Fresh.perform (strategy.name ++ " generation") b
        (strategy.plan s q.topAction q.scores q.votes n))
      (⟨!r.has strategy, .missingInput strategy⟩ :: strategy.inputRules s r n)
      (Buffer.Holds 2 n) := by
  cases strategy with
  | epsilonGreedy =>
    have absent := reads.top.isAbsent nofun
    refine perform_present absent fun top given => ?_
    have read := reads.top
    rw [given] at read
    rw [inputRules, given]
    exact Generator.greedy_follows fresh length short read
  | softmax =>
    have absent := reads.scores.isAbsent nofun
    refine perform_present absent fun scores given => ?_
    have read := reads.scores
    rw [given] at read
    rw [inputRules, given]
    exact Generator.softmax_follows fresh length short (unsigned rfl) (Argument.toReals_ok read).2
  | bag =>
    have absent := reads.votes.isAbsent nofun
    refine perform_present absent fun votes given => ?_
    have read := reads.votes
    have few := reads.few votes given
    rw [given] at read
    rw [inputRules, given]
    exact Generator.bag_follows fresh length short read (few.trans (by decide))

/-! ### Floors -/

omit [NearestScalar α] in
theorem Buffer.Holds.wide (holds : b.Holds 2 n) : b.Holds (2 ^ 187) n :=
  ⟨holds.fresh, holds.length, holds.positive, holds.short,
    fun x listed => Floor.within_wide (holds.each x listed)⟩

theorem Floor.perform_follows {minimum : α} {zeros : Bool}
    (floor : (0 ≤ minimum ∧ minimum ≤ 1) ∨ 1 < minimum) (holds : b.Holds 2 n) :
    Follows (if 0 < minimum then
        Fresh.perform "enforce_minimum_probability" b (enforce (.real minimum) zeros b)
      else .ok b) [⟨decide (1 < minimum), .outOfRange "enforce_minimum_probability"⟩]
      (Buffer.Holds (2 ^ 187) n) := by
  refine .cons (fun exceeds => ?_) fun stays => ?_
  · have above : 1 < minimum := of_decide_eq_true exceeds
    have one : (0 : α) < 1 := by
      rw [lt_iff OrderedScalar.isFinite_zero OrderedScalar.isFinite_one, NearestScalar.value_zero,
        NearestScalar.value_one]
      exact zero_lt_one
    have positive := OrderedScalar.lt_of_lt_of_le one (ComparableScalar.le_of_lt above)
    rw [if_pos positive]
    exact Fresh.perform_outOfRange (enforce_above above)
  · obtain ⟨least, most⟩ := floor.resolve_right (of_decide_eq_false stays)
    split
    · have positive : 0 < b.entries.length := holds.length.symm ▸ holds.positive
      have short : b.entries.length < 2 ^ 60 := holds.length.symm ▸ holds.short
      obtain ⟨u, planned, leaves⟩ :=
        enforce_leaves zeros holds.fresh.2 positive short holds.each least most
      exact Fresh.perform_leaves holds.fresh holds.length holds.short holds.positive leaves planned
    · exact .done holds.wide

theorem Settings.distribution_follows (strategy : Strategy)
    (unsigned : strategy = .softmax → ∀ x : α, ¬ exp x < 0)
    (floor : (0 ≤ s.minimumUniform ∧ s.minimumUniform ≤ 1) ∨ 1 < s.minimumUniform)
    (reads : q.Reads r) :
    Follows (s.distribution strategy q n) (strategy.rules s r n) (Buffer.Holds (2 ^ 187) n) := by
  refine (Buffer.zeros_follows n).bind fun zeros _ ⟨fresh, length, short⟩ => ?_
  refine (strategy.perform_follows unsigned reads fresh length short).bind fun b _ holds => ?_
  exact Floor.perform_follows floor holds

/-! ### Draws -/

/-- From finite numbers that are not too large, an index is drawn. -/
theorem Settings.sampling_held {seed : Seed} {start : UInt64} (holds : b.Holds (2 ^ 187) n)
    (expanded : seed.expand = .ok start) :
    ∃ i left, b.perform (.ok (s.sampling seed b)) =
      (.ok { status := .success, index := some i }, left) ∧ i < n := by
  have flat := Buffer.length_flat holds.fresh.2
  have filled : b.length ≠ 0 := by
    rw [flat, holds.length]
    exact holds.positive.ne'
  have finite : b.entries.all isFinite = true :=
    List.all_eq_true.mpr fun x listed => (holds.each x listed).finite
  have started : Sampler.start? seed b = some start := by
    rw [Sampler.start?, decide_eq_false filled, finite, expanded]
    rfl
  have each : ∀ x ∈ b.entries.map positivePart, Within (2 ^ 187) x := by
    intro x member
    obtain ⟨y, listed, rfl⟩ := List.mem_map.mp member
    unfold positivePart
    split
    · exact .zero (by positivity)
    · exact holds.each y listed
  have size : (b.entries.map positivePart).length = n := (List.length_map _).trans holds.length
  have total := (within_sum_two_pow (by norm_num) (size.symm ▸ holds.short) each).finite
  have drawn {weights : List α} (same : weights.length = n) :
      ∃ i, Sampler.drawIndex start weights = { status := .success, index := some i } ∧ i < n := by
    subst same
    exact ⟨_, rfl, Selection.select_lt holds.positive _⟩
  have answered : ∃ i, (s.sampling seed b).answer = { status := .success, index := some i } ∧
      i < n := by
    unfold sampling
    split
    · cases massless : (sum (b.entries.map positivePart) == 0) with
      | true =>
        refine ⟨0, ?_, holds.positive⟩
        simp [Sampler.afterNormalizing, started, total, massless]
      | false =>
        rw [(Sampler.afterNormalizing_drawn started total massless).1]
        exact drawn ((Normalize.length_scaled _).trans size)
    · rw [Sampler.withoutNormalizing, started]
      exact drawn size
  obtain ⟨i, given, inside⟩ := answered
  have performed := holds.fresh.perform_fits (Settings.sampling_fits s seed b)
  rw [given] at performed
  exact ⟨i, _, performed, inside⟩

/-! ### Decisions -/

section
variable [Numeral α] [Roster α] {member : Roster.Member α}
  (named : Roster.ofSettings s = .ok member) (sized : q.checkedSize = .ok n)
  (distributed : s.distribution member q n = .ok b)
include named sized distributed

omit [HasValue α] [NearestScalar α] in
theorem Settings.decide_refused {error : Error} (rejected : q.seed.expand = .error error)
    (clock : Clock α) : s.decide q clock = .error (.outOfRange "sampling") := by
  have refused := sampling_refused (s := s) (b := b) rejected
  unfold sampling at refused
  simp only [decide, decideBy, named, sized, distributed, refused, bind, Except.bind]
  rfl

theorem Settings.decide_held {start : UInt64} (holds : b.Holds (2 ^ 187) n)
    (expanded : q.seed.expand = .ok start) (clock : Clock α) :
    ∃ d record, s.decide q clock = .ok (d, record) ∧ d.seed = start := by
  obtain ⟨i, left, sampled, inside⟩ := sampling_held (s := s) holds expanded
  have listed : ∀ actions, q.actions = some actions → i < actions.length := by
    intro actions given
    rwa [Request.length_actions sized given]
  obtain ⟨d, record, made, -, expansion⟩ :=
    decide_done named sized distributed sampled listed expanded
  exact ⟨d, record, made, expansion⟩

end

theorem Settings.decide_follows [Numeral α] {strategy : Strategy} {clock : Clock α}
    (unsigned : strategy = .softmax → ∀ x : α, ¬ exp x < 0)
    (named : Strategy.ofSettings s = .ok strategy)
    (floor : (0 ≤ s.minimumUniform ∧ s.minimumUniform ≤ 1) ∨ 1 < s.minimumUniform)
    (reads : q.Reads r) :
    Follows (s.decide q clock) (q.rules r s strategy) fun _ => True := by
  have decided : s.decide q clock = s.decideBy strategy s.digest q clock := by
    rw [Settings.decide, Roster.ofSettings_builtin, named]
    rfl
  rw [decided]
  refine (Request.checkedSize_follows reads).bind fun n sized same => ?_
  subst same
  refine (distribution_follows strategy unsigned floor reads).bind fun b distributed holds => ?_
  suffices last : Follows (s.decide q clock) [⟨!q.seed.expand.isOk, .outOfRange "sampling"⟩]
      fun _ => True by
    rw [decided, decideBy, sized] at last
    simp only [bind, Except.bind, distributed] at last
    exact last
  refine .cons (fun invalid => ?_) fun valid => ?_
  · obtain ⟨e, rejected⟩ := exists_error (by simpa using invalid)
    exact decide_refused named sized distributed rejected clock
  · obtain ⟨start, expanded⟩ := exists_ok (by simpa using valid)
    obtain ⟨d, record, made, -⟩ := decide_held named sized distributed holds expanded clock
    rw [made]
    exact .done trivial

/-- The first rule that applies decides how `choose` fails, and where none does, there is a
decision. -/
theorem Explorer.choose_by_rules [Numeral α] [Coercion α] {e : Explorer α} {o : Overrides α}
    {strategy : Strategy} (unsigned : strategy = .softmax → ∀ x : α, ¬ exp x < 0)
    (resolved : e.settings.resolve o = .ok s) (named : Strategy.ofSettings s = .ok strategy)
    (floor : (0 ≤ s.minimumUniform ∧ s.minimumUniform ≤ 1) ∨ 1 < s.minimumUniform)
    (reads : q.Reads r) (clock : Clock α) :
    (∀ error, (e.choose q o clock).1 = .error error ↔
      Rule.first (q.rules r s strategy) = some error) ∧
    ((∃ d, (e.choose q o clock).1 = .ok d) ↔ Rule.first (q.rules r s strategy) = none) := by
  have whole : e.decide q o clock = s.decide q clock := by
    rw [decide_eq, resolved]
    rfl
  have chosen : (e.choose q o clock).1 = (s.decide q clock).map Prod.fst := by
    rw [choose, whole]
    cases s.decide q clock with
    | error error => rfl
    | ok made => rfl
  have follows : Follows (e.choose q o clock).1 (q.rules r s strategy) fun _ => True := by
    rw [chosen]
    exact (Settings.decide_follows unsigned named floor reads).map Prod.fst
  exact ⟨follows.error_iff, follows.ok_iff⟩

end

/-- Goes by a top action, under the settings when nothing is given. -/
def Explorer.plain : Explorer Float where
  settings := .standard
  log := .ofSettings .standard

/-- A top action for three. -/
def Request.ofTop (top : Int) : Request Float String where
  seed := .integer 7
  topAction := .integer top
  actionCount := .integer 3

/-- Goes by scores. -/
noncomputable def Explorer.scoring : Explorer Exact where
  settings := { Settings.standard with strategy := "softmax" }
  log := { level := "none", diagnostic := false }

noncomputable def Request.ofScores : Request Exact String where
  seed := .integer 7
  scores := .list [.real (.finite (1 / (2 : ℕ))), .real (.finite (2 : ℕ))]

noncomputable def Reading.ofScores : Reading Exact where
  count := none
  top := none
  scores := some [.finite (1 / (2 : ℕ)), .finite (2 : ℕ)]
  votes := none

theorem Explorer.choose_by_rules_of_three :
    (∃ d, (plain.choose (.ofTop 1) [] { timestamp := 0, duration := 0 }).1 = .ok d) ∧
    (plain.choose (.ofTop 3) [] { timestamp := 0, duration := 0 }).1 =
      .error (.outOfRange "epsilon_greedy generation") ∧
    ∃ d, (scoring.choose .ofScores [] { timestamp := 0, duration := 0 }).1 = .ok d := by
  have unweighed : Strategy.epsilonGreedy = .softmax → ∀ x : Float, ¬ exp x < 0 := nofun
  have resolved : plain.settings.resolve [] = .ok plain.settings := rfl
  have floor : 0 ≤ plain.settings.minimumUniform ∧ plain.settings.minimumUniform ≤ 1 := by
    decide +kernel
  have reads (top : Int) : (Request.ofTop top).Reads
      { count := some 3, top := some top, scores := none, votes := none } :=
    ⟨rfl, rfl, rfl, rfl, nofun⟩
  have exactResolved : scoring.settings.resolve [] = .ok scoring.settings := rfl
  have exactFloor : (0 : Exact) ≤ 0 ∧ (0 : Exact) ≤ 1 := by
    rw [Exact.zero_eq, Exact.one_eq, Exact.finite_le, Exact.finite_le]
    norm_num
  have exactReads : Request.ofScores.Reads .ofScores := ⟨rfl, rfl, rfl, rfl, nofun⟩
  refine ⟨?_, ?_, ?_⟩
  · apply (choose_by_rules unweighed resolved rfl (.inl floor) (reads 1) _).2.mpr
    decide +kernel
  · apply ((choose_by_rules unweighed resolved rfl (.inl floor) (reads 3) _).1 _).mpr
    decide +kernel
  · apply (choose_by_rules (fun _ => Exact.not_exp_lt_zero) exactResolved rfl (.inl exactFloor)
      exactReads _).2.mpr
    have small : ¬ 1 < scoring.settings.minimumUniform := not_lt_of_le exactFloor.2
    have numbers : Reading.ofScores.scores.getD [] = [.finite (1 / 2), .finite 2] := rfl
    have rate : isFinite scoring.settings.softmaxRate = true := rfl
    rw [Request.rules, Strategy.rules, decide_eq_false small]
    simp only [Strategy.inputRules, numbers, rate, List.any_cons, Exact.isNaN_finite]
    rfl

/-- More actions than a buffer has entries, and no top action. -/
def Request.beyondCapacity : Request Float String where
  seed := .integer 7
  actionCount := .integer (2 ^ 60)

def Reading.beyondCapacity : Reading Float where
  count := some (2 ^ 60)
  top := none
  scores := none
  votes := none

/-- A missing input is not told of where a buffer cannot be made: without the rule on its capacity,
the rules would not decide. -/
theorem Explorer.choose_beyond_capacity :
    plain.settings.resolve [] = .ok .standard ∧
    Strategy.ofSettings (.standard : Settings Float) = .ok .epsilonGreedy ∧
    (0 ≤ plain.settings.minimumUniform ∧ plain.settings.minimumUniform ≤ 1) ∧
    Request.beyondCapacity.Reads .beyondCapacity ∧
    Rule.first ((Request.beyondCapacity.rules .beyondCapacity .standard .epsilonGreedy).filter
      fun rule => rule.error ≠ .tooManyEntries) = some (.missingInput .epsilonGreedy) ∧
    (plain.choose .beyondCapacity [] { timestamp := 0, duration := 0 }).1 =
      .error .tooManyEntries := by
  have reads : Request.beyondCapacity.Reads .beyondCapacity := ⟨rfl, rfl, rfl, rfl, nofun⟩
  have floor : 0 ≤ plain.settings.minimumUniform ∧ plain.settings.minimumUniform ≤ 1 := by
    decide +kernel
  exact ⟨rfl, rfl, floor, reads, rfl, rfl⟩

end SeededChoice
