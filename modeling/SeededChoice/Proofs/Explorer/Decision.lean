import Mathlib.Logic.Equiv.Basic
import SeededChoice.Proofs.Explorer.Stages
import SeededChoice.Proofs.Sampler.Exclusion
import SeededChoice.Settings.Value

/-!
# Decisions

In exact arithmetic a decision carries a distribution above the floor, an action of positive
probability and the actions with that one in front. Once an index is drawn, the decision is made.
-/

namespace SeededChoice

variable {β : Type}

/-! ### Actions -/

theorem Promotion.getElem?_exchange {actions : List β} {i : Nat} (inside : i < actions.length)
    (j : Nat) : (exchange actions i)[j]? = actions[Equiv.swap 0 i j]? := by
  have positive : 0 < actions.length := by omega
  simp only [exchange, List.getElem?_eq_getElem positive, List.getElem?_eq_getElem inside,
    List.getElem?_set, List.length_set, Equiv.swap_apply_def]
  by_cases front : j = 0
  · by_cases same : i = 0
    · simp [front, same, positive]
    · simp [front, same, positive, inside]
  · by_cases same : j = i
    · subst same
      simp [front, inside]
    · simp [front, same, Ne.symm front, Ne.symm same]

/-! ### Floors -/

theorem Floor.eligible_of_nonneg {zeros : Bool} {x : ℝ} (natural : 0 ≤ x)
    (meant : 0 < x ∨ zeros = true) : eligible zeros x = true := by
  rcases natural.eq_or_lt with rfl | positive
  · simp [eligible, meant.resolve_left (lt_irrefl 0)]
  · exact eligible_of_pos positive

theorem Floor.Enforced.zero_stays {minimum : ℝ} {xs ys : List ℝ}
    (enforced : Enforced false minimum xs ys) {i : Nat} (zero : xs[i]? = some 0) :
    ys[i]? = some 0 := by
  obtain ⟨f, rfl, stays⟩ := enforced.exists_map
  rw [List.getElem?_map, zero, Option.map_some, stays 0 (by simp [eligible])]

/-- Over a distribution, every eligible entry gets the floor, also where all entries are equal. -/
theorem Floor.Enforced.floor_le {zeros : Bool} {minimum : ℝ} {xs ys : List ℝ}
    (enforced : Enforced zeros minimum xs ys) (distribution : IsDistribution xs)
    (positive : 0 < minimum) (most : minimum ≤ 1) {i : Nat} {x y : ℝ} (found : xs[i]? = some x)
    (listed : eligible zeros x = true) (raised : ys[i]? = some y) : minimum / xs.length ≤ y := by
  have member : x ∈ eligibles zeros xs := List.mem_filter.mpr ⟨List.mem_of_getElem? found, listed⟩
  have present : eligibles zeros xs ≠ [] := List.ne_nil_of_mem member
  have fewer : ((eligibles zeros xs).length : ℝ) ≤ xs.length :=
    Nat.cast_le.mpr (List.length_filter_le _ _)
  have share : minimum / xs.length ≤ 1 / (eligibles zeros xs).length :=
    div_le_div₀ zero_le_one most (length_eligibles_pos present) fewer
  by_cases uniform : (eligibles zeros xs).sum = 0 ∨ 999 / 1000 < minimum
  · obtain rfl := (enforced_uniform present positive uniform).mp enforced
    rw [evened, List.getElem?_map, found, Option.map_some, if_pos listed] at raised
    rwa [← Option.some.inj raised]
  · obtain ⟨factor, -, -, rfl, -⟩ := (enforced_levels present positive uniform).mp enforced
    rw [List.getElem?_map, found, Option.map_some, lift, if_pos listed] at raised
    rw [← Option.some.inj raised, attainable, sum_eligibles distribution.natural,
      distribution.total]
    exact (le_min (le_refl _) share).trans (le_max_left _ _)

/-! ### Stages -/

section
variable [Exponential] {s : Settings Exact} {q : Request Exact β} {minimum : ℝ}

theorem Strategy.plan_generates {strategy : Strategy} {top scores votes : Argument Exact} {n : Nat}
    {p : Planned Status Exact} (planned : strategy.plan s top scores votes n = .ok p) :
    p.Generates n := by
  unfold plan at planned
  split at planned
  · split at planned
    · cases planned
    · exact Generator.greedy_generates planned
  · split at planned
    · cases planned
    · exact Generator.softmax_generates planned
  · split at planned
    · cases planned
    · exact Generator.bag_generates planned

omit [Exponential] in
theorem Buffer.IsFresh.writable {b : Buffer Exact} (fresh : b.IsFresh) : b.storage.Writable :=
  fresh.1 ▸ by decide

omit [Exponential] in
theorem Buffer.IsFresh.keepsReals {b : Buffer Exact} (fresh : b.IsFresh) : b.storage.KeepsReals :=
  fresh.1 ▸ by decide

/-- What a strategy leaves when it succeeds. -/
theorem Strategy.perform_distribution {strategy : Strategy} {top scores votes : Argument Exact}
    {b after : Buffer Exact} (fresh : b.IsFresh)
    (performed : b.perform (strategy.plan s top scores votes b.entries.length) =
      (.ok .success, after)) :
    ∃ xs : List ℝ, after = .ofList (xs.map .finite) ∧ xs.length = b.entries.length ∧
      IsDistribution xs := by
  cases planned : strategy.plan s top scores votes b.entries.length with
  | error e =>
    rw [planned, Buffer.perform_error] at performed
    cases performed
  | ok p =>
    have generates := plan_generates planned
    rw [planned, fresh.perform_fits generates.fits] at performed
    obtain ⟨answered, rfl⟩ := Prod.mk.inj performed
    rcases generates with ⟨failure, -⟩ | ⟨-, distributes⟩
    · exact absurd (Except.ok.inj answered) failure
    have length := Update.length_applied distributes.fits
    obtain ⟨xs, applied, distribution⟩ := distributes.applied
    rw [applied, List.length_map] at length
    exact ⟨xs, congrArg _ applied, length, distribution⟩

theorem Floor.perform_distribution {xs : List ℝ} (distribution : IsDistribution xs) (zeros : Bool)
    (least : 0 ≤ minimum) (most : minimum ≤ 1) :
    ∃ ys, (Buffer.ofList (xs.map Exact.finite)).perform
        (enforce (.real (.finite minimum)) zeros (.ofList (xs.map Exact.finite))) =
          (.ok .success, .ofList (ys.map .finite)) ∧ Enforced zeros minimum xs ys := by
  have fresh := Buffer.ofList_isFresh (xs.map Exact.finite)
  exact perform_enforce fresh.2 fresh.writable fresh.keepsReals rfl distribution.ne_nil zeros
    least most

theorem Settings.distribution_enforced {strategy : Strategy} {n : Nat} {b : Buffer Exact}
    (floor : s.minimumUniform = .finite minimum) (least : 0 ≤ minimum) (most : minimum ≤ 1)
    (distributed : s.distribution strategy q n = .ok b) :
    ∃ zeros xs ys, Buffer.zeros n = .ok zeros ∧
      zeros.perform (strategy.plan s q.topAction q.scores q.votes n) =
        (.ok .success, .ofList (xs.map .finite)) ∧
      xs.length = n ∧ IsDistribution xs ∧ Floor.Enforced s.updateZeros minimum xs ys ∧
      b = .ofList (ys.map .finite) := by
  obtain ⟨zeros, generated, made, planned, floored⟩ := distribution_ok distributed
  obtain ⟨fresh, rfl⟩ := Buffer.zeros_ok made
  obtain ⟨xs, rfl, length, distribution⟩ := Strategy.perform_distribution fresh planned
  refine ⟨zeros, xs, ?_⟩
  rw [floor, Exact.zero_eq, Exact.finite_lt] at floored
  rcases floored with ⟨-, raised⟩ | ⟨idle, rfl⟩
  · obtain ⟨ys, performed, enforced⟩ :=
      Floor.perform_distribution distribution s.updateZeros least most
    obtain ⟨-, rfl⟩ := Prod.mk.inj (raised.symm.trans performed)
    exact ⟨ys, made, planned, length, distribution, enforced, rfl⟩
  · have zero : minimum = 0 := le_antisymm (not_lt.mp idle) least
    exact ⟨xs, made, planned, length, distribution, (Floor.enforced_idle (Or.inr zero)).mpr rfl,
      rfl⟩

/-- After a strategy has succeeded, its floor is attained. -/
theorem Settings.distribution_made {strategy : Strategy} {n : Nat} {zeros : Buffer Exact}
    {u : Update Exact} (floor : s.minimumUniform = .finite minimum) (least : 0 ≤ minimum)
    (most : minimum ≤ 1) (made : Buffer.zeros n = .ok zeros)
    (planned : strategy.plan s q.topAction q.scores q.votes n = .ok (.accept u)) :
    ∃ ys : List ℝ, s.distribution strategy q n = .ok (.ofList (ys.map .finite)) ∧
      IsDistribution ys := by
  obtain ⟨fresh, rfl⟩ := Buffer.zeros_ok made
  have performed := fresh.perform_fits (Strategy.plan_generates planned).fits
  rw [← planned] at performed
  obtain ⟨xs, left, -, generated⟩ := Strategy.perform_distribution fresh performed
  rw [left] at performed
  obtain ⟨ys, raised, enforced⟩ :=
    Floor.perform_distribution generated s.updateZeros least most
  simp only [distribution, Roster.plan_builtin, made, Fresh.perform_made performed, floor,
    Exact.zero_eq, Exact.finite_lt, bind, Except.bind]
  split
  · exact ⟨ys, Fresh.perform_made raised, enforced.isDistribution generated⟩
  · exact ⟨xs, rfl, generated⟩

section
variable {seed : Seed} {b : Buffer Exact} {ys : List ℝ} (fresh : b.IsFresh)
  (entries : b.entries = ys.map Exact.finite) (distribution : IsDistribution ys)
include fresh entries distribution

/-- Either way of sampling draws from a distribution as it is, and leaves it as it is. -/
theorem Settings.sampling_distribution {start : UInt64} (accepted : seed.expand = .ok start) :
    b.perform (.ok (s.sampling seed b)) =
      (.ok (Sampler.drawIndex start (ys.map Exact.finite)), b) := by
  unfold sampling
  split
  · obtain ⟨answered, left⟩ :=
      Sampler.afterNormalizing_shares fresh.2 entries accepted distribution.positives_pos
    rw [distribution.shares_eq] at answered left
    rw [fresh.perform_fits (Sampler.afterNormalizing_fits seed), answered, left, ← entries,
      fresh.ofList_entries]
  · rw [Sampler.withoutNormalizing_finite fresh.2 entries accepted distribution.ne_nil,
      positives_eq_self distribution.natural]
    rfl

theorem Settings.sampling_drawn {sample : Sample} {left : Buffer Exact}
    (sampled : b.perform (.ok (s.sampling seed b)) = (.ok sample, left))
    (drawn : sample.status = .success) :
    ∃ start i y, seed.expand = .ok start ∧ sample = { status := .success, index := some i } ∧
      left = b ∧ ys[i]? = some y ∧ 0 < y := by
  cases accepted : seed.expand with
  | error e =>
    rw [Settings.sampling_refused accepted] at sampled
    obtain ⟨answered, -⟩ := Prod.mk.inj sampled
    rw [← Except.ok.inj answered] at drawn
    cases drawn
  | ok start =>
    rw [sampling_distribution fresh entries distribution accepted] at sampled
    obtain ⟨answered, rfl⟩ := Prod.mk.inj sampled
    obtain ⟨i, y, selected, found, positive⟩ := Sampler.drawIndex_pos distribution start
    exact ⟨start, i, y, rfl, (Except.ok.inj answered).symm.trans selected, rfl, found, positive⟩

end

end

/-! ### Decisions -/

/-- A decision as it should be, for a floor of `minimum`: `xs` is what its strategy has generated,
and `ys` is what the index was drawn from. -/
structure Decision.Sound [Exponential] (s : Settings Exact) (q : Request Exact β) (minimum : ℝ)
    (d : Decision Exact β) (xs ys : List ℝ) : Prop where
  size : q.checkedSize = .ok ys.length
  length : xs.length = ys.length
  generated : ∃ strategy zeros, Strategy.ofSettings s = .ok strategy ∧
    Buffer.zeros ys.length = .ok zeros ∧
    zeros.perform (strategy.plan s q.topAction q.scores q.votes ys.length) =
      (.ok .success, .ofList (xs.map .finite))
  entries : d.distribution = ys.map .finite
  distribution : IsDistribution ys
  drawn : ∃ y, ys[d.index]? = some y ∧ 0 < y ∧ d.probability = .finite y
  raised : 0 < minimum → ∀ (i : Nat) (x y : ℝ), xs[i]? = some x → ys[i]? = some y →
    0 < x ∨ s.updateZeros = true → minimum / ys.length ≤ y
  excluded : s.updateZeros = false → ∀ i : Nat, xs[i]? = some 0 → ys[i]? = some 0
  seed : q.seed.expand = .ok d.seed
  actions : ∀ given, q.actions = some given → given.length = ys.length ∧
    ∃ left, d.actions = some left ∧ ∀ i : Nat, left[i]? = given[Equiv.swap 0 d.index i]?

section
variable [Exponential] [Numeral Exact] {s : Settings Exact} {q : Request Exact β} {minimum : ℝ}
  (floor : s.minimumUniform = .finite minimum) (least : 0 ≤ minimum) (most : minimum ≤ 1)
include floor least most

theorem Settings.decide_sound {clock : Clock Exact} {d : Decision Exact β} {r : Record Exact}
    (decided : s.decide q clock = .ok (d, r)) : ∃ xs ys, d.Sound s q minimum xs ys := by
  obtain ⟨strategy, n, b, left, named, sized, distributed, sampled, entries, probability, expanded,
    inside, exchanged, -⟩ := decide_ok decided
  obtain ⟨zeros, xs, ys, made, planned, rfl, generated, enforced, rfl⟩ :=
    distribution_enforced floor least most distributed
  have distribution := enforced.isDistribution generated
  have same := enforced.length_eq
  have fresh := Buffer.ofList_isFresh (ys.map Exact.finite)
  obtain ⟨-, i, y, -, selected, rfl, found, positive⟩ :=
    sampling_drawn fresh rfl distribution sampled rfl
  obtain rfl : d.index = i := Option.some.inj (congrArg Sample.index selected)
  refine ⟨xs, ys, ?_⟩
  constructor
  · rw [sized, same]
  · exact same.symm
  · rw [same]
    exact ⟨strategy, zeros, named, made, planned⟩
  · exact entries
  · exact distribution
  · refine ⟨y, found, positive, ?_⟩
    rw [probability, List.getD_eq_getElem?_getD]
    show ((ys.map Exact.finite)[d.index]?).getD 0 = _
    rw [List.getElem?_map, found]
    rfl
  · intro above i x y listed kept meant
    have natural := generated.natural x (List.mem_of_getElem? listed)
    rw [same]
    exact enforced.floor_le generated above most listed (Floor.eligible_of_nonneg natural meant) kept
  · intro off i zero
    rw [off] at enforced
    exact enforced.zero_stays zero
  · exact expanded
  · intro given asked
    refine ⟨(Request.length_actions sized asked).trans same.symm, _, ?_,
      Promotion.getElem?_exchange (inside given asked)⟩
    rw [exchanged, asked, Option.map_some]

/-- Every decision is sound, and once the sampler has succeeded, there is one: the chosen action
can be promoted and the seed expanded. -/
theorem Explorer.decisions_sound [Coercion Exact] {e : Explorer Exact} {o : Overrides Exact}
    (resolved : e.settings.resolve o = .ok s) (clock : Clock Exact) :
    (∀ d, (e.choose q o clock).1 = .ok d → ∃ xs ys, d.Sound s q minimum xs ys) ∧
    ∀ strategy n b sample left, Strategy.ofSettings s = .ok strategy → q.checkedSize = .ok n →
      s.distribution strategy q n = .ok b →
      b.perform (.ok (s.sampling q.seed b)) = (.ok sample, left) → sample.status = .success →
      ∃ d, (e.choose q o clock).1 = .ok d ∧ sample.index = some d.index ∧
        q.seed.expand = .ok d.seed ∧
        ∀ given, q.actions = some given → (Promotion.promote given d.index).1 = .success := by
  constructor
  · intro d chosen
    obtain ⟨t, r, other, decided⟩ := choose_ok chosen
    obtain rfl := Except.ok.inj (other.symm.trans resolved)
    exact Settings.decide_sound floor least most decided
  · intro strategy n b sample left named sized distributed sampled drawn
    obtain ⟨zeros, xs, ys, -, -, rfl, generated, enforced, rfl⟩ :=
      Settings.distribution_enforced floor least most distributed
    have fresh := Buffer.ofList_isFresh (ys.map Exact.finite)
    obtain ⟨start, i, y, expanded, rfl, rfl, found, -⟩ := Settings.sampling_drawn fresh rfl
      (enforced.isDistribution generated) sampled drawn
    have inside : ∀ given, q.actions = some given → i < given.length := by
      intro given asked
      obtain ⟨listed, -⟩ := List.getElem?_eq_some_iff.mp found
      rwa [Request.length_actions sized asked, ← enforced.length_eq]
    obtain ⟨d, r, decided, rfl, rfl⟩ :=
      Settings.decide_done named sized distributed sampled inside expanded
    refine ⟨d, choose_done resolved decided, rfl, expanded, ?_⟩
    intro given asked
    rw [Promotion.promote_inside (inside given asked)]

end

/-- Goes by votes, above a floor of a half for the actions that have any. -/
noncomputable def Explorer.voting : Explorer Exact where
  settings := { Settings.standard with strategy := "bag", minimumUniform := .finite (1 / (2 : ℕ)) }
  log := { level := "none", diagnostic := false }

/-- Three actions, of which the second has no votes. -/
def Request.ofVotes : Request Exact String where
  seed := .integer 7
  votes := .list [.integer 0, .integer 2, .integer 2]
  actions := some ["a", "b", "c"]

theorem Explorer.decisions_sound_of_votes :
    ∃ d xs ys, (voting.choose .ofVotes [] { timestamp := 0, duration := 0 }).1 = .ok d ∧
      Decision.Sound voting.settings Request.ofVotes (1 / 2) d xs ys := by
  have least : (0 : ℝ) ≤ 1 / 2 := by norm_num
  have most : (1 / 2 : ℝ) ≤ 1 := by norm_num
  have resolved : voting.settings.resolve [] = .ok voting.settings := rfl
  obtain ⟨sound, complete⟩ := decisions_sound (q := Request.ofVotes) rfl least most resolved
    { timestamp := 0, duration := 0 }
  have made : Buffer.zeros 3 = .ok (Buffer.ofList [(0 : Exact), 0, 0]) := rfl
  have tallied : Strategy.bag.plan voting.settings Request.ofVotes.topAction
      Request.ofVotes.scores Request.ofVotes.votes 3 =
    .ok (.accept (.assign ((Generator.tally [0, 2, 2] 3).map fun count =>
      (Scalar.ofNat count / Scalar.ofNat 3 : Exact)))) := rfl
  obtain ⟨ys, distributed, distribution⟩ :=
    Settings.distribution_made rfl least most made tallied
  have expanded : Request.ofVotes.seed.expand = .ok 7 := rfl
  have sampled := Settings.sampling_distribution (s := voting.settings)
    (Buffer.ofList_isFresh (ys.map Exact.finite)) rfl distribution expanded
  obtain ⟨d, chosen, -⟩ := complete .bag 3 _ _ _ rfl rfl distributed sampled rfl
  obtain ⟨xs, ys, lawful⟩ := sound d chosen
  exact ⟨d, xs, ys, chosen, lawful⟩

end SeededChoice
