import SeededChoice.Explorer
import SeededChoice.Proofs.Argument.Lists

/-!
# Rules of refusal

A computation follows a list of rules if the first one that applies decides how it fails, and if it
gives a result where none applies. The rules for a request are stated over what its arguments are
read as.
-/

namespace SeededChoice

/-! ### Rules -/

/-- When an error is due. -/
structure Rule where
  applies : Bool
  error : Error

/-- The error of the first rule that applies. -/
def Rule.first (rules : List Rule) : Option Error := (rules.find? Rule.applies).map Rule.error

/-- A computation that fails by the first rule that applies, and gives a result of some kind where
none does. -/
def Follows {ρ : Type} (x : Except Error ρ) (rules : List Rule) (kind : ρ → Prop) : Prop :=
  (∃ error, x = .error error ∧ Rule.first rules = some error) ∨
    ∃ a, x = .ok a ∧ Rule.first rules = none ∧ kind a

theorem Rule.first_append (rules more : List Rule) :
    first (rules ++ more) = (first rules).or (first more) := by
  rw [first, List.find?_append, Option.map_or]
  rfl

namespace Follows

variable {ρ σ : Type} {x : Except Error ρ} {rule : Rule} {rules more : List Rule}
  {kind : ρ → Prop}

theorem done {a : ρ} (fits : kind a) : Follows (.ok a) [] kind := .inr ⟨a, rfl, rfl, fits⟩

theorem cons (fails : rule.applies = true → x = .error rule.error)
    (passes : rule.applies = false → Follows x rules kind) : Follows x (rule :: rules) kind := by
  cases applies : rule.applies with
  | true =>
    refine .inl ⟨rule.error, fails applies, ?_⟩
    rw [Rule.first, List.find?_cons_of_pos applies]
    rfl
  | false =>
    unfold Follows Rule.first
    rw [List.find?_cons_of_neg (by rw [applies]; exact Bool.false_ne_true)]
    exact passes applies

/-- Rules that come later are for the rest of the computation. -/
theorem bind {f : ρ → Except Error σ} {last : σ → Prop} (first : Follows x rules kind)
    (rest : ∀ a, x = .ok a → kind a → Follows (f a) more last) :
    Follows (x >>= f) (rules ++ more) last := by
  unfold Follows
  rw [Rule.first_append]
  rcases first with ⟨error, rfl, due⟩ | ⟨a, rfl, unmet, fits⟩
  · rw [due]
    exact .inl ⟨error, rfl, rfl⟩
  · rw [unmet]
    exact rest a rfl fits

theorem kind_of_ok {a : ρ} (follows : Follows x rules kind) (done : x = .ok a) : kind a := by
  rcases follows with ⟨error, failed, -⟩ | ⟨b, made, -, fits⟩
  · cases done.symm.trans failed
  · obtain rfl := Except.ok.inj (done.symm.trans made)
    exact fits

theorem map (follows : Follows x rules kind) (f : ρ → σ) :
    Follows (x.map f) rules fun _ => True := by
  rcases follows with ⟨error, rfl, due⟩ | ⟨a, rfl, unmet, -⟩
  · exact .inl ⟨error, rfl, due⟩
  · exact .inr ⟨f a, rfl, unmet, trivial⟩

theorem error_iff (follows : Follows x rules kind) (error : Error) :
    x = .error error ↔ Rule.first rules = some error := by
  rcases follows with ⟨other, rfl, due⟩ | ⟨a, rfl, unmet, -⟩
  · simp [due]
  · simp [unmet]

theorem ok_iff (follows : Follows x rules kind) :
    (∃ a, x = .ok a) ↔ Rule.first rules = none := by
  rcases follows with ⟨error, rfl, due⟩ | ⟨a, rfl, unmet, -⟩
  · simp [due]
  · simp [unmet]

end Follows

/-! ### Arguments -/

namespace Argument

variable {α ρ : Type} {a : Argument α} {given : Option ρ} {read : Argument α → Except Error ρ}

/-- An argument that is absent, or is read in a given way. -/
def Reads (a : Argument α) (read : Argument α → Except Error ρ) : Option ρ → Prop
  | none => a.isAbsent = true
  | some x => read a = .ok x

theorem Reads.isAbsent (refuses : ∀ x, read .absent ≠ .ok x) (reads : a.Reads read given) :
    a.isAbsent = given.isNone := by
  cases given with
  | none => exact reads
  | some x =>
    cases a with
    | absent => exact absurd reads (refuses x)
    | integer | real | list => rfl

end Argument

/-! ### Requests -/

/-- What the arguments of a request come to. -/
structure Reading (α : Type) where
  count : Option Int
  top : Option Int
  scores : Option (List α)
  votes : Option (List Int)

variable {α β : Type} [Scalar α]

/-- A request with arguments of the right kinds. -/
structure Request.Reads (q : Request α β) (r : Reading α) : Prop where
  count : q.actionCount.Reads Argument.toCount r.count
  top : q.topAction.Reads Argument.toIndex r.top
  scores : q.scores.Reads Argument.toReals r.scores
  votes : q.votes.Reads Argument.toIndexes r.votes
  /-- No list has more items than can be addressed. -/
  few : ∀ votes, r.votes = some votes → votes.length ≤ Buffer.capacity

namespace Reading

omit [Scalar α] in
/-- The number of actions, from whatever tells it. -/
def size? (r : Reading α) (actions : Option (List β)) : Option Int :=
  r.count <|> r.scores.map (fun scores => (scores.length : Int)) <|>
    actions.map (fun actions => (actions.length : Int))

/-- Whether the input of a strategy is there. -/
def has (r : Reading α) : Strategy → Bool
  | .epsilonGreedy => r.top.isSome
  | .softmax => r.scores.isSome
  | .bag => r.votes.isSome

end Reading

/-- The rules on the number of actions. -/
def Request.sizeRules (q : Request α β) (r : Reading α) : List Rule :=
  let size := (r.size? q.actions).getD 0
  let given := (q.actions.map List.length).getD size.toNat
  [⟨(r.size? q.actions).isNone, .noActionCount⟩,
    ⟨decide (size < 0), .negativeActionCount size⟩,
    ⟨decide ((given : Int) ≠ size), .actionCount given size.toNat⟩]

/-- The rules of a strategy for `n` actions, once its input is there. -/
def Strategy.inputRules (strategy : Strategy) (s : Settings α) (r : Reading α) (n : Nat) :
    List Rule :=
  let operation := strategy.name ++ " generation"
  match strategy with
  | .epsilonGreedy =>
    let top := r.top.getD 0
    [⟨decide (n = 0 ∨ ¬ (0 ≤ s.epsilon ∧ s.epsilon ≤ 1) ∨ top < 0 ∨
        ((n : Int) ≤ top ∧ s.clampTop = false)), .outOfRange operation⟩]
  | .softmax =>
    let scores := r.scores.getD []
    [⟨decide (scores.length = 0 ∨ n = 0), .outOfRange operation⟩,
      ⟨decide (scores.length ≠ n), .sizesDiffer operation⟩,
      ⟨!Scalar.isFinite s.softmaxRate || scores.any Scalar.isNaN, .outOfRange operation⟩]
  | .bag =>
    let votes := r.votes.getD []
    [⟨decide (votes.length = 0 ∨ n = 0 ∨ ∃ v ∈ votes, v < 0), .outOfRange operation⟩,
      ⟨decide (∃ v ∈ votes, (n : Int) ≤ v), .sizesDiffer operation⟩]

/-- The rules on the distribution over `n` actions. -/
def Strategy.rules (strategy : Strategy) (s : Settings α) (r : Reading α) (n : Nat) : List Rule :=
  ⟨decide (Buffer.capacity < n), .tooManyEntries⟩ :: ⟨!r.has strategy, .missingInput strategy⟩ ::
    strategy.inputRules s r n ++
    [⟨decide (1 < s.minimumUniform), .outOfRange "enforce_minimum_probability"⟩]

/-- All rules, in the order in which they are applied. -/
def Request.rules (q : Request α β) (r : Reading α) (s : Settings α) (strategy : Strategy) :
    List Rule :=
  q.sizeRules r ++ (strategy.rules s r ((r.size? q.actions).getD 0).toNat ++
    [⟨!q.seed.expand.isOk, .outOfRange "sampling"⟩])

/-! ### The number of actions -/

theorem Request.size_follows {q : Request α β} {r : Reading α} (reads : q.Reads r) :
    q.size = match r.size? q.actions with
      | some size => .ok size
      | none => .error .noActionCount := by
  have count := reads.count.isAbsent nofun
  have scores := reads.scores.isAbsent nofun
  have read := reads.count
  have listed := reads.scores
  unfold size Reading.size?
  rw [count, scores]
  cases given : r.count with
  | some n =>
    rw [given] at read
    exact read
  | none =>
    cases present : r.scores with
    | some xs =>
      rw [present] at listed
      have length := (Argument.toReals_ok listed).1
      simp [length, Except.map]
    | none =>
      cases q.actions with
      | none => rfl
      | some actions => rfl

theorem Request.checkedSize_follows {q : Request α β} {r : Reading α} (reads : q.Reads r) :
    Follows q.checkedSize (q.sizeRules r) fun n => n = ((r.size? q.actions).getD 0).toNat := by
  unfold checkedSize sizeRules
  rw [size_follows reads]
  cases r.size? q.actions with
  | none => exact .cons (fun _ => rfl) nofun
  | some size =>
    refine .cons nofun fun _ => .cons (fun negative => ?_) fun natural => ?_
    · have less : size < 0 := of_decide_eq_true negative
      simp [bind, Except.bind, less, throw, throwThe, MonadExceptOf.throw]
    · have least : ¬ size < 0 := of_decide_eq_false natural
      have whole : (size.toNat : Int) = size := Int.toNat_of_nonneg (Int.not_lt.mp least)
      simp only [bind, Except.bind, if_neg least]
      cases q.actions with
      | none =>
        refine .cons (fun differ => ?_) fun _ => .done rfl
        have different : (size.toNat : Int) ≠ size := of_decide_eq_true differ
        exact absurd whole different
      | some actions =>
        refine .cons (fun differ => ?_) fun same => ?_
        · have different : (actions.length : Int) ≠ size := of_decide_eq_true differ
          simp only [if_pos different]
          rfl
        · have equal : ¬ (actions.length : Int) ≠ size := of_decide_eq_false same
          simp only [if_neg equal]
          exact .done rfl

end SeededChoice
