import SeededChoice.Proofs.Outcome
import SeededChoice.Proofs.Sorted
import SeededChoice.Registry
import SeededChoice.Settings

/-!
# Runs of a registry

A registry is asked for classes and for its names, and registrars are made and applied. Whatever the
order, a name stands for the class that was first accepted for it, and what is refused leaves no
trace.
-/

namespace SeededChoice.Registry

variable {α κ : Type}

/-- An instance for settings: the class that their strategy names, with the settings. -/
def build (r : Registry κ) (s : Settings α) : Except Error (κ × Settings α) := do
  return (← r.get s.strategy, s)

/-! ### One registration -/

section
variable {r : Registry κ} {name : String} {c : κ}

theorem find?_eq_none_iff : r.find? name = none ↔ ∀ c, (name, c) ∉ r.entries := by
  rw [find?, List.lookup_eq_none_iff]
  grind

theorem register_error_iff {e : Error} :
    r.register name c = .error e ↔ e = .strategyTaken name ∧ ∃ c, (name, c) ∈ r.entries := by
  rw [← not_forall_not, ← find?_eq_none_iff, register]
  cases r.find? name <;> simp [eq_comm]

theorem register_ok_iff {t : Registry κ} :
    r.register name c = .ok t ↔ (∀ c, (name, c) ∉ r.entries) ∧
      t = { entries := r.entries ++ [(name, c)], labels := (c, name) :: r.labels } := by
  rw [← find?_eq_none_iff, register]
  cases taken : r.find? name <;> simp [eq_comm]

theorem get_ok_iff : r.get name = .ok c ↔
    ∃ before after, r.entries = before ++ (name, c) :: after ∧
      ∀ entry ∈ before, entry.1 ≠ name := by
  have found : r.get name = .ok c ↔ r.find? name = some c := by
    rw [get]
    cases r.find? name <;> simp
  rw [found, find?, List.lookup_eq_some_iff]
  simp only [bne_iff_ne, ne_comm]

theorem get_error_iff {e : Error} :
    r.get name = .error e ↔ e = .unknownStrategy name r.names ∧ ∀ c, (name, c) ∉ r.entries := by
  rw [← find?_eq_none_iff, get]
  cases r.find? name <;> simp [eq_comm]

theorem mem_names : name ∈ r.names ↔ ∃ c, (name, c) ∈ r.entries := by
  rw [names, List.mem_mergeSort]
  simp

end

/-! ### Runs -/

/-- What is done with a registry. A registrar is made for a name first, and applied to classes at
any time after that. -/
inductive Action (α κ : Type) where
  | prepare (name : String)
  | apply (registrar : Nat) (c : κ)
  | get (name : String)
  | build (s : Settings α)
  | list

inductive Answer (α κ : Type) where
  | registrar (number : Nat)
  | registered (name : String) (c : κ)
  | found (c : κ)
  | built (c : κ) (s : Settings α)
  | listed (names : List String)
  /-- There is no such registrar. -/
  | nothing

/-- A registry with the registrars made for it, the oldest first, each of which knows its name. -/
structure Desk (κ : Type) where
  registry : Registry κ
  registrars : List String := []

namespace Desk

def step (d : Desk κ) : Action α κ → Except Error (Answer α κ) × Desk κ
  | .prepare name =>
    (.ok (.registrar d.registrars.length), { d with registrars := d.registrars ++ [name] })
  | .apply n c =>
    match d.registrars[n]? with
    | none => (.ok .nothing, d)
    | some name =>
      match d.registry.register name c with
      | .ok r => (.ok (.registered name c), { d with registry := r })
      | .error e => (.error e, d)
  | .get name => ((d.registry.get name).map .found, d)
  | .build s => ((d.registry.build s).map fun (c, s) => .built c s, d)
  | .list => (.ok (.listed d.registry.names), d)

def run (d : Desk κ) : List (Action α κ) → List (Except Error (Answer α κ)) × Desk κ
  | [] => ([], d)
  | a :: actions =>
    let (outcome, d) := d.step a
    let (outcomes, d) := d.run actions
    (outcome :: outcomes, d)

end Desk

/-- The registrations that were accepted, by what was answered. -/
def accepted (outcomes : List (Except Error (Answer α κ))) : List (String × κ) :=
  outcomes.filterMap fun
    | .ok (.registered name c) => some (name, c)
    | _ => none

theorem accepted_cons (outcome : Except Error (Answer α κ))
    (outcomes : List (Except Error (Answer α κ))) :
    accepted (outcome :: outcomes) = accepted [outcome] ++ accepted outcomes :=
  List.filterMap_append (l := [outcome])

/-- A registry holds the registrations accepted so far, in their order. -/
structure Holds (history : List (String × κ)) (r : Registry κ) : Prop where
  entries : r.entries = history
  distinct : (history.map Prod.fst).Nodup

section
variable {d : Desk κ} {history : List (String × κ)}

theorem register_holds {r t : Registry κ} {name : String} {c : κ} (holds : Holds history r)
    (registered : r.register name c = .ok t) : Holds (history ++ [(name, c)]) t := by
  obtain ⟨vacant, rfl⟩ := register_ok_iff.mp registered
  rw [holds.entries] at vacant
  refine ⟨congrArg (· ++ [(name, c)]) holds.entries, ?_⟩
  rw [List.map_append, List.nodup_append]
  refine ⟨holds.distinct, List.nodup_singleton _, ?_⟩
  rintro _ listed _ same rfl
  obtain ⟨⟨_, other⟩, member, rfl⟩ := List.mem_map.mp listed
  obtain rfl := List.mem_singleton.mp same
  exact vacant other member

/-- A registrar that was made looks for its name when it is applied. -/
theorem Desk.step_apply {n : Nat} {name : String} {c : κ}
    (made : d.registrars[n]? = some name) :
    (∃ t, d.registry.register name c = .ok t ∧
      d.step (α := α) (.apply n c) = (.ok (.registered name c), { d with registry := t })) ∨
    ∃ e, d.registry.register name c = .error e ∧ d.step (α := α) (.apply n c) = (.error e, d) := by
  rw [step, made]
  cases registered : d.registry.register name c with
  | ok t => exact .inl ⟨t, rfl, by simp [registered]⟩
  | error e => exact .inr ⟨e, rfl, by simp [registered]⟩

theorem Desk.step_apply_error_iff {n : Nat} {name : String} {c : κ} {e : Error}
    (made : d.registrars[n]? = some name) :
    (d.step (α := α) (.apply n c)).1 = .error e ↔ d.registry.register name c = .error e := by
  rcases step_apply (α := α) (c := c) made with
    ⟨t, registered, stepped⟩ | ⟨_, refused, stepped⟩
  · simp [registered, stepped]
  · simp [refused, stepped]

theorem Desk.step_apply_ok_iff {n : Nat} {name : String} {c : κ}
    (made : d.registrars[n]? = some name) :
    (d.step (α := α) (.apply n c)).1 = .ok (.registered name c) ↔
      ∃ t, d.registry.register name c = .ok t := by
  rcases step_apply (α := α) (c := c) made with
    ⟨t, registered, stepped⟩ | ⟨_, refused, stepped⟩
  · simp [registered, stepped]
  · simp [refused, stepped]

theorem Desk.step_apply_taken {n : Nat} {name : String} {c : κ}
    (made : d.registrars[n]? = some name) (taken : ∃ c, (name, c) ∈ d.registry.entries) :
    d.step (α := α) (.apply n c) = (.error (.strategyTaken name), d) := by
  have refused : d.registry.register name c = .error (.strategyTaken name) :=
    register_error_iff.mpr ⟨rfl, taken⟩
  rw [step, made]
  simp only [refused]

/-- A step accepts a registration, or leaves the registry as it is. -/
theorem Desk.step_cases (d : Desk κ) (a : Action α κ) :
    (∃ name c t, d.registry.register name c = .ok t ∧
      d.step a = (.ok (.registered name c), { d with registry := t })) ∨
    accepted [(d.step a).1] = [] ∧ (d.step a).2.registry = d.registry := by
  cases a with
  | prepare name => exact .inr ⟨rfl, rfl⟩
  | get name =>
    refine .inr ⟨?_, rfl⟩
    rw [step]
    cases d.registry.get name <;> rfl
  | build s =>
    refine .inr ⟨?_, rfl⟩
    rw [step]
    cases d.registry.build s <;> rfl
  | list => exact .inr ⟨rfl, rfl⟩
  | apply n c =>
    cases made : d.registrars[n]? with
    | none =>
      rw [step, made]
      exact .inr ⟨rfl, rfl⟩
    | some name =>
      rcases step_apply (α := α) (c := c) made with ⟨t, registered, stepped⟩ | ⟨e, -, stepped⟩
      · exact .inl ⟨name, c, t, registered, stepped⟩
      · rw [stepped]
        exact .inr ⟨rfl, rfl⟩

section
variable {P : List (String × κ) → Registry κ → Prop}
  (kept : ∀ {history r t name c}, P history r → r.register name c = .ok t →
    P (history ++ [(name, c)]) t)
include kept

theorem Desk.step_keeps (holds : P history d.registry) (a : Action α κ) :
    P (history ++ accepted [(d.step a).1]) (d.step a).2.registry := by
  rcases d.step_cases a with ⟨name, c, t, registered, stepped⟩ | ⟨nothing, same⟩
  · rw [stepped]
    exact kept holds registered
  · rw [nothing, same, List.append_nil]
    exact holds

/-- What accepted registrations keep true of a registry and its history holds after every run. -/
theorem Desk.run_keeps (holds : P history d.registry) (actions : List (Action α κ)) :
    P (history ++ accepted (d.run actions).1) (d.run actions).2.registry := by
  induction actions generalizing d history with
  | nil =>
    rw [show accepted (d.run ([] : List (Action α κ))).1 = [] from rfl, List.append_nil]
    exact holds
  | cons a actions ih =>
    have rest := ih (step_keeps kept holds a)
    rw [List.append_assoc, ← accepted_cons] at rest
    exact rest

end

theorem Desk.run_append (actions more : List (Action α κ)) : d.run (actions ++ more) =
    ((d.run actions).1 ++ ((d.run actions).2.run more).1, ((d.run actions).2.run more).2) := by
  induction actions generalizing d with
  | nil => rfl
  | cons a actions ih =>
    show ((d.step a).1 :: ((d.step a).2.run (actions ++ more)).1,
      ((d.step a).2.run (actions ++ more)).2) = _
    rw [ih]
    rfl

end

/-! ### First come, first served -/

/-- The registrations accepted from the start, those of the built-in strategies first. -/
def historyOf (f : Strategy → κ) (outcomes : List (Except Error (Answer α κ))) :
    List (String × κ) :=
  Strategy.all.map (fun s => (s.name, f s)) ++ accepted outcomes

/-- A registry at work from the start. -/
def Desk.start (f : Strategy → κ) : Desk κ where
  registry := builtin f

theorem builtin_holds (f : Strategy → κ) :
    Holds (Strategy.all.map fun s => (s.name, f s)) (builtin f) where
  entries := rfl
  distinct := by
    rw [List.map_map]
    show (Strategy.all.map Strategy.name).Nodup
    decide

/-- The registration of a class that was the first one for a name. -/
def FirstFor (history : List (String × κ)) (name : String) (c : κ) : Prop :=
  ∃ before after, history = before ++ (name, c) :: after ∧ ∀ entry ∈ before, entry.1 ≠ name

/-- How a registry answers after the registrations of a history. -/
structure FirstServed (α : Type) (history : List (String × κ)) (d : Desk κ) : Prop where
  found : ∀ name c, (d.step (α := α) (.get name)).1 = .ok (.found c) ↔ FirstFor history name c
  unknown : ∀ name e, (d.step (α := α) (.get name)).1 = .error e ↔
    e = .unknownStrategy name d.registry.names ∧ ∀ c, (name, c) ∉ history
  built : ∀ (s : Settings α) c, (d.step (.build s)).1 = .ok (.built c s) ↔
    FirstFor history s.strategy c
  unbuilt : ∀ (s : Settings α) e, (d.step (.build s)).1 = .error e ↔
    e = .unknownStrategy s.strategy d.registry.names ∧ ∀ c, (s.strategy, c) ∉ history
  listed : ∃ names, (d.step (α := α) .list).1 = .ok (.listed names) ∧ names.Pairwise (· < ·) ∧
    ∀ name, name ∈ names ↔ ∃ c, (name, c) ∈ history
  once : (history.map Prod.fst).Nodup
  /-- A registrar looks for its name when it is applied, not when it is made. -/
  refused : ∀ n name c e, d.registrars[n]? = some name →
    ((d.step (α := α) (.apply n c)).1 = .error e ↔
      e = .strategyTaken name ∧ ∃ other, (name, other) ∈ history)
  registered : ∀ n name c, d.registrars[n]? = some name →
    ((d.step (α := α) (.apply n c)).1 = .ok (.registered name c) ↔ ∀ other, (name, other) ∉ history)
  /-- Of several registrars for one name, the next one to be applied is refused. -/
  again : ∀ n m name c other, d.registrars[n]? = some name → d.registrars[m]? = some name →
    (d.step (α := α) (.apply n c)).2.step (α := α) (.apply m other) =
      (.error (.strategyTaken name), (d.step (α := α) (.apply n c)).2)
  untouched : ∀ (a : Action α κ) e, (d.step a).1 = .error e → (d.step a).2 = d

section
variable {history : List (String × κ)} {d : Desk κ} {c : κ}

theorem build_ok_iff {r : Registry κ} {s : Settings α} :
    (r.build s).map (fun (c, s) => Answer.built c s) = .ok (.built c s) ↔
      r.get s.strategy = .ok c := by
  rw [build]
  cases r.get s.strategy <;> simp [bind, Except.bind, Except.map, pure, Except.pure]

theorem build_error_iff {r : Registry κ} {s : Settings α} {e : Error} :
    (r.build s).map (fun (c, s) => Answer.built c s) = .error e ↔ r.get s.strategy = .error e := by
  rw [build]
  cases r.get s.strategy <;> simp [bind, Except.bind, Except.map, pure, Except.pure]

theorem Desk.step_error {a : Action α κ} {e : Error} (failed : (d.step a).1 = .error e) :
    (d.step a).2 = d := by
  cases a with
  | prepare name => cases failed
  | get name | build s | list => rfl
  | apply n c =>
    cases made : d.registrars[n]? with
    | none => rw [step, made]
    | some name =>
      rcases step_apply (α := α) (c := c) made with ⟨t, -, stepped⟩ | ⟨_, -, stepped⟩
      · rw [stepped] at failed
        cases failed
      · rw [stepped]

theorem Holds.firstServed (holds : Holds history d.registry) : FirstServed α history d := by
  obtain ⟨rfl, distinct⟩ := holds
  constructor
  case found =>
    intro name c
    exact (map_ok_iff Answer.found.inj).trans get_ok_iff
  case unknown =>
    intro name e
    exact map_error_iff.trans get_error_iff
  case built =>
    intro s c
    exact build_ok_iff.trans get_ok_iff
  case unbuilt =>
    intro s e
    exact build_error_iff.trans get_error_iff
  case listed =>
    exact ⟨_, rfl, pairwise_lt_mergeSort distinct, fun name => mem_names⟩
  case once => exact distinct
  case refused =>
    intro n name c e made
    exact (Desk.step_apply_error_iff made).trans register_error_iff
  case registered =>
    intro n name c made
    rw [Desk.step_apply_ok_iff made]
    constructor
    · rintro ⟨t, registered⟩
      exact (register_ok_iff.mp registered).1
    · intro vacant
      exact ⟨_, register_ok_iff.mpr ⟨vacant, rfl⟩⟩
  case again =>
    intro n m name c other first second
    rcases Desk.step_apply (α := α) (c := c) first with
      ⟨t, registered, stepped⟩ | ⟨_, refused, stepped⟩
    · obtain ⟨-, rfl⟩ := register_ok_iff.mp registered
      rw [stepped]
      exact Desk.step_apply_taken second ⟨c, by simp⟩
    · obtain ⟨-, taken⟩ := register_error_iff.mp refused
      rw [stepped]
      exact Desk.step_apply_taken second taken
  case untouched => exact fun a e failed => Desk.step_error failed

/-- Whatever is done with a registry, each name is accepted once and stands for the class it was
then given to. A registration is refused exactly where its name was accepted before, whenever its
registrar was made, and what is refused changes nothing. -/
theorem first_come_first_served (f : Strategy → κ) (actions : List (Action α κ)) :
    ∃ outcomes d, (Desk.start f).run actions = (outcomes, d) ∧
      FirstServed α (historyOf f outcomes) d :=
  ⟨_, _, rfl, (Desk.run_keeps (P := Holds) register_holds (builtin_holds f) actions).firstServed⟩

end

/-- Two registrars for one name, made before either of them is applied. -/
def Action.twice : List (Action Float Strategy) :=
  [.prepare "best", .prepare "best", .apply 0 .bag, .apply 1 .softmax]

theorem first_come_first_served_of_twice :
    ∃ outcomes d, (Desk.start id).run Action.twice = (outcomes, d) ∧
      FirstServed Float (historyOf id outcomes) d ∧ accepted outcomes = [("best", .bag)] ∧
      (d.step (α := Float) (.get "best")).1 = .ok (.found .bag) := by
  obtain ⟨outcomes, d, ran, served⟩ := first_come_first_served id Action.twice
  have kept : accepted outcomes = [("best", .bag)] := by
    obtain rfl := congrArg Prod.fst ran
    rfl
  refine ⟨outcomes, d, ran, served, kept, (served.found "best" .bag).mpr ?_⟩
  rw [historyOf, kept]
  exact ⟨_, [], rfl, by decide⟩

end SeededChoice.Registry
