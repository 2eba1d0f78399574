import SeededChoice.Proofs.Explorer.Overrides
import SeededChoice.Proofs.Registry.Run

/-!
# Labels of classes

A class goes by one name, the last one that was accepted for it. What a decision is named after is
that name, so it is the configured one exactly where the class was given no other since.
-/

namespace SeededChoice

variable {α β κ : Type}

namespace Registry

/-- The registration of a class that was the last one for it. -/
def LastFor (history : List (String × κ)) (c : κ) (name : String) : Prop :=
  ∃ before after, history = before ++ (name, c) :: after ∧ ∀ entry ∈ after, entry.2 ≠ c

section
variable {history : List (String × κ)} {c other : κ} {name own : String}

theorem lastFor_append_self : LastFor (history ++ [(name, c)]) c name :=
  ⟨history, [], rfl, fun _ listed => absurd listed List.not_mem_nil⟩

/-- A class that is registered has a last registration. -/
theorem exists_lastFor (listed : (name, c) ∈ history) : ∃ own, LastFor history c own := by
  induction history using List.reverseRecOn with
  | nil => cases listed
  | append_singleton history entry ih =>
    by_cases same : entry.2 = c
    · exact ⟨entry.1, by rw [← same]; exact lastFor_append_self⟩
    · rcases List.mem_append.mp listed with before | last
      · obtain ⟨own, earlier, after, rfl, others⟩ := ih before
        refine ⟨own, earlier, after ++ [entry], by simp, ?_⟩
        intro later member
        rcases List.mem_append.mp member with member | last
        · exact others later member
        · rw [List.mem_singleton.mp last]
          exact same
      · rw [← List.mem_singleton.mp last] at same
        exact absurd rfl same

/-- A registration is the last one for its class, and leaves those of other classes alone. -/
theorem lastFor_append (last : LastFor (history ++ [(name, c)]) other own) :
    other = c ∧ own = name ∨ other ≠ c ∧ LastFor history other own := by
  obtain ⟨before, after, split, others⟩ := last
  rcases List.eq_nil_or_concat after with rfl | ⟨rest, entry, rfl⟩
  · obtain ⟨-, same⟩ := List.append_inj' split rfl
    obtain ⟨rfl, rfl⟩ := Prod.mk.inj (List.singleton_inj.mp same)
    exact .inl ⟨rfl, rfl⟩
  · rw [List.concat_eq_append, ← List.cons_append, ← List.append_assoc] at split
    obtain ⟨rfl, same⟩ := List.append_inj' split rfl
    obtain rfl := List.singleton_inj.mp same
    refine .inr ⟨(others (name, c) (by simp)).symm, before, rest, rfl, ?_⟩
    intro later member
    exact others later (by simp [member])

end

/-! ### Labels of a run -/

variable [DecidableEq κ]

/-- Each class goes by the name of its last registration. -/
def Labels (history : List (String × κ)) (r : Registry κ) : Prop :=
  ∀ c name, LastFor history c name → r.label c = name

section
variable {history : List (String × κ)} {r t : Registry κ} {name : String} {c : κ}

theorem label_cons (entries : List (String × κ)) (labels : List (κ × String)) (other : κ) :
    label { entries, labels := (c, name) :: labels } other =
      if other = c then name else label { entries, labels } other := by
  unfold label
  rw [List.lookup_cons]
  by_cases same : other = c
  · rw [same, if_pos rfl, beq_self_eq_true]
    rfl
  · rw [if_neg same, beq_false_of_ne same]

theorem register_labels (labels : Labels history r) (registered : r.register name c = .ok t) :
    Labels (history ++ [(name, c)]) t := by
  obtain ⟨-, rfl⟩ := register_ok_iff.mp registered
  intro other own last
  rw [label_cons]
  rcases lastFor_append last with ⟨rfl, rfl⟩ | ⟨ne, earlier⟩
  · exact if_pos rfl
  · rw [if_neg ne]
    exact labels other own earlier

/-- The built-in strategies have classes of their own. -/
theorem builtin_labels {f : Strategy → κ} (distinct : Function.Injective f) :
    Labels (Strategy.all.map fun s => (s.name, f s)) (builtin f) := by
  intro c name ⟨before, after, split, others⟩
  have listed : (name, c) ∈ Strategy.all.map fun s => (s.name, f s) := by simp [split]
  obtain ⟨s, -, same⟩ := List.mem_map.mp listed
  obtain ⟨rfl, rfl⟩ := Prod.mk.inj same
  have apart (s t : Strategy) : (f s == f t) = (s == t) := by
    rw [Bool.eq_iff_iff, beq_iff_eq, beq_iff_eq, distinct.eq_iff]
  cases s <;>
    simp only [label, builtin, Strategy.all, List.map_cons, List.lookup_cons, apart] <;>
    rfl

end

end Registry

/-! ### Decisions by registered classes -/

section
variable [Scalar α] [Numeral α] {s : Settings α} {q : Request α β} {clock : Clock α}

omit [Numeral α] in
/-- A decision and its record are named after the strategy that made it. -/
theorem Settings.decideBy_names [Roster α] {member : Roster.Member α} {digest : String}
    {d : Decision α β} {r : Record α} (decided : s.decideBy member digest q clock = .ok (d, r)) :
    d.strategy = Roster.name member ∧ r.strategy = Roster.name member := by
  obtain ⟨n, -, decided⟩ := bind_ok decided
  obtain ⟨b, -, decided⟩ := bind_ok decided
  obtain ⟨sample, -, decided⟩ := bind_ok decided
  obtain ⟨index, -, decided⟩ := bind_ok decided
  obtain ⟨actions, -, decided⟩ := bind_ok decided
  obtain ⟨seed, -, decided⟩ := bind_ok decided
  obtain ⟨rfl, rfl⟩ := Prod.mk.inj (Except.ok.inj decided)
  exact ⟨rfl, rfl⟩

/-- Makes a decision by a class, which is asked for its label when it is at work. -/
def Registry.decideBy [BEq κ] (r : Registry κ) (plans : κ → Planner α) (c : κ) (s : Settings α)
    (q : Request α β) (clock : Clock α) : Except Error (Decision α β × Record α) :=
  letI := r.roster plans
  s.decideBy c s.digest q clock

theorem Registry.decideBy_names [BEq κ] {r : Registry κ} {plans : κ → Planner α} {c : κ}
    {d : Decision α β} {record : Record α}
    (decided : r.decideBy plans c s q clock = .ok (d, record)) :
    d.strategy = r.label c ∧ record.strategy = r.label c :=
  letI := r.roster plans
  Settings.decideBy_names decided

/-- The built-in strategies decide as the classes of their registry. -/
theorem Settings.decide_eq_builtin : s.decide q clock = (do
    let strategy ← (Registry.builtin id).get s.strategy
    (Registry.builtin id).decideBy Strategy.plan strategy s q clock) := by
  have named : (Registry.builtin id).label = Strategy.name := by
    funext strategy
    cases strategy <;> rfl
  unfold Registry.decideBy Registry.roster
  rw [named]
  rfl

end

/-! ### Names of decisions -/

namespace Registry

section
variable {history : List (String × κ)} {name : String} {c : κ}

theorem FirstFor.append (first : FirstFor history name c) (more : List (String × κ)) :
    FirstFor (history ++ more) name c := by
  obtain ⟨before, after, rfl, others⟩ := first
  exact ⟨before, after ++ more, by simp, others⟩

theorem FirstFor.mem (first : FirstFor history name c) : (name, c) ∈ history := by
  obtain ⟨before, after, rfl, -⟩ := first
  simp

theorem Labels.eq_iff [DecidableEq κ] {r : Registry κ} (labels : Labels history r)
    (listed : (name, c) ∈ history) (own : String) : r.label c = own ↔ LastFor history c own := by
  constructor
  · rintro rfl
    obtain ⟨own, last⟩ := exists_lastFor listed
    rwa [labels c own last]
  · exact labels c own

end

variable [Scalar α] [Numeral α] [DecidableEq κ]

/-- A class found for a name is found for it ever after, and goes by the name that was accepted for
it last. So do its instances, and the decisions made by it and their records: they are named as
configured exactly where that was the last name of the class. -/
theorem named_as_configured_iff {f : Strategy → κ} (distinct : Function.Injective f)
    (earlier later : List (Action α κ)) {name : String} {c : κ}
    (found : ((Desk.start f).run earlier).2.registry.get name = .ok c) (plans : κ → Planner α) :
    ∃ outcomes d, (Desk.start f).run (earlier ++ later) = (outcomes, d) ∧
      d.registry.get name = .ok c ∧
      (∀ own, d.registry.label c = own ↔ LastFor (historyOf f outcomes) c own) ∧
      ∀ s : Settings α, s.strategy = name →
        d.registry.build s = .ok (c, s) ∧
        ∀ (q : Request α β) (clock : Clock α) decision record,
          d.registry.decideBy plans c s q clock = .ok (decision, record) →
          record.strategy = decision.strategy ∧
          (decision.strategy = s.strategy ↔ LastFor (historyOf f outcomes) c s.strategy) := by
  have middle : Holds (historyOf f ((Desk.start f).run earlier).1) _ :=
    Desk.run_keeps (P := Holds) (d := Desk.start f) register_holds (builtin_holds f) earlier
  have holds : Holds (historyOf f ((Desk.start f).run (earlier ++ later)).1) _ :=
    Desk.run_keeps (P := Holds) (d := Desk.start f) register_holds (builtin_holds f)
      (earlier ++ later)
  have labels : Labels (historyOf f ((Desk.start f).run (earlier ++ later)).1) _ :=
    Desk.run_keeps (P := Labels) (d := Desk.start f) register_labels (builtin_labels distinct)
      (earlier ++ later)
  have first : FirstFor (historyOf f ((Desk.start f).run (earlier ++ later)).1) name c := by
    rw [historyOf, Desk.run_append, accepted, List.filterMap_append, ← List.append_assoc]
    apply FirstFor.append
    show FirstFor (historyOf f ((Desk.start f).run earlier).1) name c
    rw [← middle.entries]
    exact get_ok_iff.mp found
  have still : ((Desk.start f).run (earlier ++ later)).2.registry.get name = .ok c := by
    rw [get_ok_iff, holds.entries]
    exact first
  have named (own : String) := labels.eq_iff first.mem own
  refine ⟨_, _, rfl, still, named, ?_⟩
  rintro s rfl
  refine ⟨by rw [build, still]; rfl, ?_⟩
  intro q clock decision record decided
  obtain ⟨decisionNamed, recordNamed⟩ := decideBy_names decided
  rw [decisionNamed, recordNamed]
  exact ⟨rfl, named _⟩

/-- The classes of the built-in strategies, and one that was made later. -/
inductive Class where
  | builtin (strategy : Strategy)
  | late
  deriving DecidableEq

/-- The later class plans by votes. -/
def Class.plan : Class → Planner Float
  | builtin strategy => strategy.plan
  | late => Strategy.bag.plan

/-- The later class is given two names, one after the other. -/
def Desk.renamed : Desk Class :=
  ((start .builtin).run (α := Float)
    [.prepare "first", .apply 0 .late, .prepare "second", .apply 1 .late]).2

theorem named_as_configured_iff_of_two :
    Function.Injective Class.builtin ∧
    ((Desk.start Class.builtin).run (α := Float)
      [.prepare "first", .apply 0 .late]).2.registry.get "first" = .ok .late ∧
    ∃ outcomes d, (Desk.start Class.builtin).run (α := Float)
        [.prepare "first", .apply 0 .late, .prepare "second", .apply 1 .late] = (outcomes, d) ∧
      d.registry.label .late = "second" ∧
      LastFor (historyOf Class.builtin outcomes) .late "second" ∧
      ¬ LastFor (historyOf Class.builtin outcomes) .late "first" := by
  have distinct : Function.Injective Class.builtin := fun _ _ => Class.builtin.inj
  have found : ((Desk.start Class.builtin).run (α := Float)
      [.prepare "first", .apply 0 .late]).2.registry.get "first" = .ok .late := rfl
  obtain ⟨outcomes, d, ran, -, named, -⟩ := named_as_configured_iff (β := String) distinct
    [.prepare "first", .apply 0 .late] [.prepare "second", .apply 1 .late] found Class.plan
  have label : d.registry.label .late = "second" := by
    obtain rfl := congrArg Prod.snd ran
    rfl
  refine ⟨distinct, found, outcomes, d, ran, label, (named "second").mp label, ?_⟩
  rw [← named, label]
  decide

/-- Settings that name the later class by its first name. -/
def firstNamed : Settings Float := { Settings.watched with strategy := "first" }

/-- A class that is given a second name loses the first one, although it still stands for it: a
decision that was configured by the first name is told by the second. -/
theorem second_name_told :
    Desk.renamed.registry.get "first" = .ok .late ∧
    Desk.renamed.registry.label .late = "second" ∧
    firstNamed.strategy = "first" ∧
    ∃ decision record, Desk.renamed.registry.decideBy Class.plan .late firstNamed .ofSecondVoted
        { timestamp := 0, duration := 1.5 } = .ok (decision, record) ∧
      decision.strategy = "second" ∧ record.strategy = "second" := by
  have decided : (Desk.renamed.registry.decideBy Class.plan .late firstNamed .ofSecondVoted
      { timestamp := 0, duration := 1.5 }).isOk = true := by
    decide +kernel
  obtain ⟨⟨decision, record⟩, decided⟩ := exists_ok decided
  obtain ⟨decisionNamed, recordNamed⟩ := decideBy_names decided
  exact ⟨rfl, rfl, rfl, decision, record, decided, decisionNamed, recordNamed⟩

end Registry

end SeededChoice
