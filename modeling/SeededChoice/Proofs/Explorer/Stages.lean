import SeededChoice.Explorer
import SeededChoice.Proofs.Operation.Shape

/-!
# The stages of a decision

What is known of a decision that was made: each of its stages has succeeded, and the decision is put
together from what they gave.
-/

namespace SeededChoice

theorem Status.check_ok {operation : String} {s : Status} {u : Unit}
    (checked : s.check operation = .ok u) : s = .success := by
  cases s with
  | success => rfl
  | badRange | sizeMismatch => cases checked

namespace Fresh

theorem drawn_ok {β : Type} {operation : String} {status : Status} {value : Option β} {x : β}
    (found : drawn operation status value = .ok x) : status = .success ∧ value = some x := by
  obtain ⟨_, checked, found⟩ := bind_ok found
  refine ⟨Status.check_ok checked, ?_⟩
  cases value with
  | none => cases found
  | some y => exact congrArg some (Except.ok.inj found)

theorem perform_done {α : Type} [Scalar α] {operation : String} {b after : Buffer α}
    {plan : Except Error (Planned Status α)} (done : perform operation b plan = .ok after) :
    b.perform plan = (.ok .success, after) := by
  unfold perform at done
  split at done
  rename_i status left performed
  obtain ⟨s, answered, done⟩ := bind_ok done
  obtain ⟨_, checked, done⟩ := bind_ok done
  rw [performed, answered, Status.check_ok checked, Except.ok.inj done]

theorem perform_made {α : Type} [Scalar α] {operation : String} {b after : Buffer α}
    {plan : Except Error (Planned Status α)} (done : b.perform plan = (.ok .success, after)) :
    perform operation b plan = .ok after := by
  rw [perform, done]
  rfl

end Fresh

theorem Promotion.promote_ok {β : Type} {actions : List β} {i : Nat}
    (promoted : (promote actions i).1 = .success) :
    i < actions.length ∧ (promote actions i).2 = exchange actions i := by
  unfold promote at promoted ⊢
  split at promoted
  · rename_i inside
    rw [if_pos inside]
    exact ⟨by omega, rfl⟩
  · cases promoted

theorem Promotion.promote_inside {β : Type} {actions : List β} {i : Nat}
    (inside : i < actions.length) : promote actions i = (.success, exchange actions i) := by
  rw [promote, if_pos (by omega), Int.toNat_natCast]

variable {α β : Type} [Scalar α]

theorem Request.length_actions {q : Request α β} {n : Nat} (sized : q.checkedSize = .ok n)
    {actions : List β} (given : q.actions = some actions) : actions.length = n := by
  unfold checkedSize at sized
  obtain ⟨size, -, sized⟩ := bind_ok sized
  simp only [given, pure, Except.pure, bind, Except.bind] at sized
  split at sized
  · cases sized
  split at sized
  · cases sized
  obtain rfl := Except.ok.inj sized
  omega

/-! ### Fresh buffers -/

/-- Doubles in one row, as every buffer of a decision holds them. -/
def Buffer.IsFresh (b : Buffer α) : Prop := b.storage = .grid .double ∧ b.rows = none

namespace Buffer

omit [Scalar α] in
theorem ofList_isFresh (entries : List α) : (ofList entries).IsFresh := ⟨rfl, rfl⟩

omit [Scalar α] in
theorem IsFresh.ofList_entries {b : Buffer α} (fresh : b.IsFresh) : ofList b.entries = b := by
  obtain ⟨storage, rows, entries⟩ := b
  obtain ⟨rfl, rfl⟩ := fresh
  rfl

theorem zeros_ok {n : Nat} {b : Buffer α} (made : zeros n = .ok b) :
    b.IsFresh ∧ b.entries.length = n := by
  unfold zeros at made
  split at made
  · obtain rfl := Except.ok.inj made
    exact ⟨ofList_isFresh _, List.length_replicate⟩
  · cases made

theorem IsFresh.update {b : Buffer α} (fresh : b.IsFresh) (u : Update α) :
    (b.update u).2.IsFresh ∧ (b.update u).2.entries.length = b.entries.length := by
  obtain ⟨storage, rows, entries⟩ := b
  obtain ⟨rfl, rfl⟩ := fresh
  cases u with
  | keep => exact ⟨⟨rfl, rfl⟩, rfl⟩
  | fill value =>
    rw [Buffer.update]
    split
    · rename_i after filled
      cases value with
      | list items => cases filled
      | absent | integer | real =>
        have written : (ofList entries).fillEntries _ = .ok after := filled
        unfold fillEntries at written
        obtain ⟨x, -, rfl⟩ := map_ok written
        exact ⟨⟨rfl, rfl⟩, List.length_map _⟩
    · exact ⟨⟨rfl, rfl⟩, rfl⟩
  | assign values =>
    show (if values.length = entries.length then _ else _ : Except Error Unit × Buffer α).2.IsFresh ∧
      (if values.length = entries.length then _ else _ : Except Error Unit × Buffer α).2.entries.length
        = entries.length
    split
    · rename_i fits
      exact ⟨⟨rfl, rfl⟩, (List.length_map _).trans fits⟩
    · exact ⟨⟨rfl, rfl⟩, rfl⟩

theorem IsFresh.perform {ρ : Type} {b : Buffer α} (fresh : b.IsFresh)
    (plan : Except Error (Planned ρ α)) : (b.perform plan).2.IsFresh := by
  cases plan with
  | error e => exact fresh
  | ok p => exact (fresh.update p.update).1

theorem IsFresh.length_perform {ρ : Type} {b : Buffer α} (fresh : b.IsFresh)
    (plan : Except Error (Planned ρ α)) :
    (b.perform plan).2.entries.length = b.entries.length := by
  cases plan with
  | error e => rfl
  | ok p => exact (fresh.update p.update).2

/-- A plan that fits is carried out to the letter, as doubles are kept as they are. -/
theorem IsFresh.perform_fits {ρ : Type} {b : Buffer α} {p : Planned ρ α} (fresh : b.IsFresh)
    (fits : p.update.Fits b.entries.length) :
    b.perform (.ok p) = (.ok p.answer, ofList (p.update.applied b.entries)) := by
  obtain ⟨answer, update⟩ := p
  obtain ⟨storage, rows, entries⟩ := b
  obtain ⟨rfl, rfl⟩ := fresh
  cases update with
  | keep => rfl
  | fill value =>
    obtain ⟨x, rfl⟩ := fits
    rfl
  | assign values =>
    have held : values.map (Storage.grid .double).hold = values := List.map_id values
    have writable : (Storage.grid .double).Writable := by decide
    rw [Buffer.perform, update_assign rfl writable fits, held]
    rfl

end Buffer

/-! ### Stages -/

/-- How settings have an index drawn. -/
def Settings.sampling (s : Settings α) (seed : Seed) (b : Buffer α) : Planned Sample α :=
  if s.normalize then Sampler.afterNormalizing seed b else Sampler.withoutNormalizing seed b

theorem Settings.sampling_refused {s : Settings α} {seed : Seed} {b : Buffer α} {e : Error}
    (refused : seed.expand = .error e) : s.sampling seed b = Sampler.refused := by
  rw [sampling, Sampler.afterNormalizing, Sampler.withoutNormalizing,
    Sampler.start?_error refused, ite_self]

theorem Settings.sampling_fits (s : Settings α) (seed : Seed) (b : Buffer α) :
    (s.sampling seed b).update.Fits b.entries.length := by
  unfold sampling
  split
  · exact Sampler.afterNormalizing_fits seed
  · rw [Sampler.withoutNormalizing_keeps]
    trivial

/-- The index is inside every list of actions, and trades places there with the first. -/
theorem Promotion.mapM_promote {given left : Option (List β)} {operation : String} {i : Nat}
    (promoted : (given.mapM fun actions => do
      let (status, left) := promote actions i
      status.check operation
      return left : Except Error _) = .ok left) :
    (∀ actions, given = some actions → i < actions.length) ∧ left = given.map (exchange · i) := by
  cases given with
  | none =>
    obtain rfl := Except.ok.inj promoted
    exact ⟨nofun, rfl⟩
  | some actions =>
    obtain ⟨result, done, found⟩ := map_ok promoted
    obtain ⟨_, checked, done⟩ := bind_ok done
    obtain ⟨inside, exchanged⟩ := promote_ok (Status.check_ok checked)
    have same : exchange actions i = result := exchanged.symm.trans (Except.ok.inj done)
    constructor
    · intro _ given
      rwa [← Option.some.inj given]
    · rw [← found, ← same]
      rfl

variable [Roster α]

theorem Settings.distribution_ok {s : Settings α} {member : Roster.Member α} {q : Request α β}
    {n : Nat} {b : Buffer α} (distributed : s.distribution member q n = .ok b) :
    ∃ zeros generated, Buffer.zeros n = .ok zeros ∧
      zeros.perform (Roster.plan member s q.topAction q.scores q.votes n) =
        (.ok .success, generated) ∧
      (0 < s.minimumUniform ∧ generated.perform
          (Floor.enforce (.real s.minimumUniform) s.updateZeros generated) = (.ok .success, b) ∨
        ¬ 0 < s.minimumUniform ∧ generated = b) := by
  unfold distribution at distributed
  obtain ⟨zeros, made, distributed⟩ := bind_ok distributed
  obtain ⟨generated, planned, distributed⟩ := bind_ok distributed
  refine ⟨zeros, generated, made, Fresh.perform_done planned, ?_⟩
  split at distributed
  · rename_i floored
    exact Or.inl ⟨floored, Fresh.perform_done distributed⟩
  · rename_i unfloored
    exact Or.inr ⟨unfloored, Except.ok.inj distributed⟩

/-- The distribution is in a fresh buffer with an entry for each action. -/
theorem Settings.distribution_isFresh {s : Settings α} {member : Roster.Member α} {q : Request α β}
    {n : Nat} {b : Buffer α} (distributed : s.distribution member q n = .ok b) :
    b.IsFresh ∧ b.entries.length = n := by
  obtain ⟨zeros, generated, made, planned, floored⟩ := distribution_ok distributed
  obtain ⟨fresh, rfl⟩ := Buffer.zeros_ok made
  have left := congrArg Prod.snd planned
  obtain rfl : _ = generated := left
  have kept := fresh.length_perform
    (Roster.plan member s q.topAction q.scores q.votes zeros.entries.length)
  have freshGenerated := fresh.perform
    (Roster.plan member s q.topAction q.scores q.votes zeros.entries.length)
  rcases floored with ⟨-, raised⟩ | ⟨-, rfl⟩
  · obtain rfl : _ = b := congrArg Prod.snd raised
    exact ⟨freshGenerated.perform _, (freshGenerated.length_perform _).trans kept⟩
  · exact ⟨freshGenerated, kept⟩

variable [Numeral α] {s : Settings α} {q : Request α β} {clock : Clock α}
  {d : Decision α β} {r : Record α}

/-- What the log is told of a decision that was made under settings. -/
def Decision.record (d : Decision α β) (s : Settings α) (clock : Clock α) : Record α where
  timestamp := clock.timestamp
  duration := clock.duration
  strategy := d.strategy
  actionCount := d.distribution.length
  minimumUniform := s.minimumUniform
  normalized := s.normalize
  seed := d.seed.toNat
  chosen := d.index
  probability := d.probability
  digest := s.digest

theorem Settings.decide_ok (decided : s.decide q clock = .ok (d, r)) :
    ∃ member n b left, Roster.ofSettings s = .ok member ∧ q.checkedSize = .ok n ∧
      s.distribution member q n = .ok b ∧
      b.perform (.ok (s.sampling q.seed b)) =
        (.ok { status := .success, index := some d.index }, left) ∧
      d.distribution = left.entries ∧ d.probability = left.entries.getD d.index 0 ∧
      q.seed.expand = .ok d.seed ∧
      (∀ actions, q.actions = some actions → d.index < actions.length) ∧
      d.actions = q.actions.map (Promotion.exchange · d.index) ∧
      d.strategy = Roster.name member ∧ r = d.record s clock := by
  unfold decide at decided
  obtain ⟨member, named, decided⟩ := bind_ok decided
  unfold decideBy at decided
  obtain ⟨n, sized, decided⟩ := bind_ok decided
  obtain ⟨b, generated, decided⟩ := bind_ok decided
  split at decided
  rename_i sample left performed
  obtain ⟨⟨status, index?⟩, answered, decided⟩ := bind_ok decided
  obtain ⟨index, found, decided⟩ := bind_ok decided
  obtain ⟨actions, promoted, decided⟩ := bind_ok decided
  obtain ⟨seed, expanded, decided⟩ := bind_ok decided
  obtain ⟨rfl, rfl⟩ := Prod.mk.inj (Except.ok.inj decided)
  obtain ⟨rfl, rfl⟩ := Fresh.drawn_ok found
  obtain ⟨inside, exchanged⟩ := Promotion.mapM_promote promoted
  rw [answered] at performed
  obtain ⟨fresh, rfl⟩ := distribution_isFresh generated
  have kept := fresh.length_perform (.ok (s.sampling q.seed b))
  rw [sampling, performed] at kept
  refine ⟨member, _, b, left, named, sized, generated, performed, rfl, rfl, expanded, inside,
    exchanged, rfl, ?_⟩
  rw [Decision.record, kept]

/-- Past the draw of an index among the actions, a decision is made. -/
theorem Settings.decide_done {member : Roster.Member α} {n i : Nat} {b left : Buffer α}
    {start : UInt64} (named : Roster.ofSettings s = .ok member) (sized : q.checkedSize = .ok n)
    (distributed : s.distribution member q n = .ok b)
    (sampled : b.perform (.ok (s.sampling q.seed b)) =
      (.ok { status := .success, index := some i }, left))
    (inside : ∀ actions, q.actions = some actions → i < actions.length)
    (expanded : q.seed.expand = .ok start) :
    ∃ d r, s.decide q clock = .ok (d, r) ∧ d.index = i ∧ d.seed = start := by
  have drawn : Fresh.drawn "sampling" .success (some i) = .ok i := rfl
  unfold sampling at sampled
  simp only [decide, decideBy, named, sized, distributed, sampled, expanded, drawn, bind,
    Except.bind, pure, Except.pure]
  cases given : q.actions with
  | none => exact ⟨_, _, rfl, rfl, rfl⟩
  | some actions =>
    have checked : Status.success.check "swap_chosen" = .ok () := rfl
    simp [Promotion.promote_inside (inside actions given), checked]

variable [Coercion α]

/-- What an explorer has found for its own settings is what a decision under them would find. -/
theorem Explorer.decide_eq (e : Explorer α) (q : Request α β) (o : Overrides α)
    (clock : Clock α) :
    e.decide q o clock = e.settings.resolve o >>= fun s => s.decide q clock := by
  unfold decide Settings.resolve Settings.resolveIn Settings.override?
  cases e.settings.overrideIn? .given o with
  | error error => rfl
  | ok resolved =>
    cases resolved with
    | some s => rfl
    | none =>
      rw [e.strategy_eq, e.digest_eq]
      rfl

theorem Explorer.choose_decided (e : Explorer α) (q : Request α β) (o : Overrides α) (clock : Clock α) :
    (e.choose q o clock).1 = (e.decide q o clock).map Prod.fst := by
  rw [choose]
  cases e.decide q o clock with
  | error error => rfl
  | ok made => rfl

theorem Explorer.choose_ok {e : Explorer α} {o : Overrides α}
    (chosen : (e.choose q o clock).1 = .ok d) :
    ∃ s r, e.settings.resolve o = .ok s ∧ s.decide q clock = .ok (d, r) := by
  rw [choose, decide_eq] at chosen
  split at chosen
  · cases chosen
  · rename_i decision record decided
    obtain ⟨s, resolved, decided⟩ := bind_ok decided
    obtain rfl := Except.ok.inj chosen
    exact ⟨s, record, resolved, decided⟩

theorem Explorer.choose_done {e : Explorer α} {o : Overrides α}
    (resolved : e.settings.resolve o = .ok s) (decided : s.decide q clock = .ok (d, r)) :
    (e.choose q o clock).1 = .ok d := by
  simp [choose, decide_eq, resolved, decided, bind, Except.bind]

end SeededChoice
