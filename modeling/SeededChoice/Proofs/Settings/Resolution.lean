import SeededChoice.Proofs.Explorer.Overrides
import SeededChoice.Proofs.Settings.Coercion
import SeededChoice.Proofs.Settings.Keys
import SeededChoice.Settings.Surroundings

/-!
# Overridden settings

Overrides are told field by field: a field takes the value given for it, or stays as it is. What a
call finds around it has no say, and overriding twice is overriding once by the updated overrides.
-/

namespace SeededChoice

variable {α : Type} [Coercion α]

namespace Settings

variable {s t : Settings α} {o : Overrides α}

/-! ### What is given by overrides and settings -/

theorem lookup_entries (s : Settings α) (f : Field) :
    s.entries.lookup f.name = some (Coercion.give f.kind (s.get f)) := by
  cases f <;> rfl

/-- What overrides give for a field, or else what the settings have. -/
def overlaid (s : Settings α) (o : Overrides α) (f : Field) : Coercion.Given α :=
  (o.value? (Overrides.keyOf f)).getD (Coercion.give f.kind (s.get f))

theorem lookup_overlaid (s : Settings α) (o : Overrides α) (f : Field) :
    (o.updates.reverse ++ s.entries).lookup f.name = some (s.overlaid o f) := by
  rw [List.lookup_append, Overrides.lookup_reverse_updates, lookup_entries]
  unfold overlaid Overrides.keyOf
  cases o.value? (Sources.mark ++ f.name) <;> rfl

theorem overlaid_named (known : ¬ o.NamesNoField) :
    ∀ entry ∈ o.updates.reverse ++ s.entries, ∃ f : Field, f.name = entry.1 := by
  intro entry listed
  rcases List.mem_append.mp listed with updated | own
  · have marked := Overrides.mem_updates.mp (List.mem_reverse.mp updated)
    by_contra unknown
    exact known ⟨_, _, marked, not_exists.mp unknown⟩
  · obtain ⟨f, -, rfl⟩ := List.mem_map.mp own
    exact ⟨f, rfl⟩

/-! ### Settings under overrides -/

/-- Settings under overrides. A field for which a value is given takes that, coerced; any other
stays as it is. -/
structure Overridden (s : Settings α) (o : Overrides α) (t : Settings α) : Prop where
  given : ∀ f v, o.value? (Overrides.keyOf f) = some v → f.read v = .ok (t.get f)
  kept : ∀ f, o.value? (Overrides.keyOf f) = none → t.get f = s.get f

/-- Where no override applies, the settings stay as they are. -/
theorem overridden_self (unmarked : o.updates.isEmpty = true) : s.Overridden o s := by
  rw [Overrides.updates_isEmpty_iff] at unmarked
  refine ⟨fun f v given => ?_, fun f _ => rfl⟩
  obtain ⟨w, listed⟩ := Overrides.value?_isSome_iff.mp (Option.isSome_of_eq_some given)
  exact absurd ⟨_, w, listed⟩ unmarked

/-- What is overridden twice is overridden once by the updated overrides. -/
theorem Overridden.trans {u : Settings α} {more : Overrides α} (first : s.Overridden o t)
    (second : t.Overridden more u) : s.Overridden (o.updated more) u := by
  constructor
  · intro f v given
    rw [Overrides.value?_updated] at given
    cases later : more.value? (Overrides.keyOf f) with
    | some w =>
      rw [later, Option.some_or] at given
      exact second.given f v (later.trans given)
    | none =>
      rw [later, Option.none_or] at given
      rw [second.kept f later]
      exact first.given f v given
  · intro f absent
    rw [Overrides.value?_updated, Option.or_eq_none_iff] at absent
    rw [second.kept f absent.1, first.kept f absent.2]

section
variable [LawfulCoercion α]

theorem ofValues_overlaid_iff : ofValues (s.overlaid o) = .ok t ↔ s.Overridden o t := by
  rw [ofValues_ok_iff]
  constructor
  · intro read
    constructor
    · intro f v given
      rw [← read f, overlaid, given]
      rfl
    · intro f absent
      have own := read f
      rw [overlaid, absent] at own
      exact Except.ok.inj (own.symm.trans (f.read_give (s.get f)))
  · rintro ⟨given, kept⟩ f
    unfold overlaid
    cases value : o.value? (Overrides.keyOf f) with
    | some v => exact given f v value
    | none => rw [kept f value]; exact f.read_give (s.get f)

theorem ofValues_overlaid_of_unmarked (unmarked : o.updates.isEmpty = true) :
    ofValues (s.overlaid o) = .ok s :=
  ofValues_overlaid_iff.mpr (overridden_self unmarked)

theorem overlaid_error_iff {f : Field} {fault : Fault} : f.read (s.overlaid o f) = .error fault ↔
    ∃ v, o.value? (Overrides.keyOf f) = some v ∧ f.read v = .error fault := by
  unfold overlaid
  cases o.value? (Overrides.keyOf f) with
  | some v => simp
  | none => simp [Field.read_give]

end

end Settings

/-! ### Resolution -/

theorem Sources.given_givenFirst : (given : Sources α).GivenFirst :=
  fun _ _ _ _ found => found

namespace Settings

variable [Scalar α] {around : Sources α} {s t : Settings α} {o : Overrides α}

theorem overrideIn?_of_unknown {key name : String} (unknown : o.unknownKey? = some (key, name)) :
    s.overrideIn? around o = .error (.unknownField key name) := by
  rw [overrideIn?, Overrides.validate, unknown]
  rfl

section
variable (first : around.GivenFirst)
include first

/-- All fields are given, so what else is found has no say. -/
theorem load_overlaid (known : ¬ o.NamesNoField) :
    around.load (o.updates.reverse ++ s.entries) = ofValues (s.overlaid o) := by
  have found (f : Field) : around (o.updates.reverse ++ s.entries) f = some (s.overlaid o f) :=
    first _ f _ (overlaid_named known) (lookup_overlaid s o f)
  simp only [Sources.load, found, Option.getD_some]

theorem overrideIn?_of_known (known : ¬ o.NamesNoField) : s.overrideIn? around o =
    if o.updates.isEmpty then .ok none else (ofValues (s.overlaid o)).map some := by
  have validated : o.validate = .ok () := by
    rw [Overrides.validate, Overrides.unknownKey?_eq_none_iff.mpr known]
  rw [overrideIn?, validated, load_overlaid first known]
  cases o.updates.isEmpty with
  | true => rfl
  | false => cases ofValues (s.overlaid o) <;> rfl

theorem overrideIn?_eq : s.overrideIn? around o = s.override? o := by
  unfold override?
  cases unknown : o.unknownKey? with
  | none =>
    have known := Overrides.unknownKey?_eq_none_iff.mp unknown
    rw [overrideIn?_of_known first known, overrideIn?_of_known Sources.given_givenFirst known]
  | some reported => rw [overrideIn?_of_unknown unknown, overrideIn?_of_unknown unknown]

/-! ### Outcomes -/

/-- A key that names no field is reported; settings without updates stay; all others are made anew. -/
theorem overrideIn?_cases :
    (∃ key name, o.unknownKey? = some (key, name) ∧
      s.overrideIn? around o = .error (.unknownField key name)) ∨
    (o.unknownKey? = none ∧ o.updates.isEmpty = true ∧ s.overrideIn? around o = .ok none) ∨
    (o.unknownKey? = none ∧ o.updates.isEmpty = false ∧
      s.overrideIn? around o = (ofValues (s.overlaid o)).map some) := by
  cases unknown : o.unknownKey? with
  | none =>
    rw [overrideIn?_of_known first (Overrides.unknownKey?_eq_none_iff.mp unknown)]
    cases o.updates.isEmpty with
    | true => exact .inr (.inl ⟨rfl, rfl, rfl⟩)
    | false => exact .inr (.inr ⟨rfl, rfl, rfl⟩)
  | some reported => exact .inl ⟨_, _, rfl, overrideIn?_of_unknown unknown⟩

theorem overrideIn?_unknown_iff {key name : String} :
    s.overrideIn? around o = .error (.unknownField key name) ↔
      o.unknownKey? = some (key, name) := by
  rcases overrideIn?_cases (s := s) (o := o) first with
    ⟨_, _, unknown, same⟩ | ⟨known, -, same⟩ | ⟨known, -, same⟩
  · simp [same, unknown]
  · simp [same, known]
  · rw [same, known]
    cases made : ofValues (s.overlaid o) with
    | ok t => simp [Except.map]
    | error e =>
      obtain ⟨rfl, -⟩ := ofValues_error_iff.mp made
      simp [Except.map]

theorem overrideIn?_ok_none_iff :
    s.overrideIn? around o = .ok none ↔ o.updates.isEmpty = true := by
  rcases overrideIn?_cases (s := s) (o := o) first with
    ⟨_, name, unknown, same⟩ | ⟨-, unmarked, same⟩ | ⟨-, marked, same⟩
  · obtain ⟨before, v, after, rfl, rfl, -⟩ := Overrides.unknownKey?_eq_some_iff.mp unknown
    rw [same, Overrides.updates_isEmpty_iff]
    exact iff_of_false nofun (not_not.mpr ⟨name, v, by simp⟩)
  · simp [same, unmarked]
  · rw [same, marked]
    cases ofValues (s.overlaid o) <;> simp [Except.map]

variable [LawfulCoercion α]

theorem overrideIn?_invalid_iff {faults : List (Field × Fault)} :
    s.overrideIn? around o = .error (.invalidSettings faults) ↔
      ¬ o.NamesNoField ∧ ofValues (s.overlaid o) = .error (.invalidSettings faults) := by
  rw [← Overrides.unknownKey?_eq_none_iff]
  rcases overrideIn?_cases (s := s) (o := o) first with
    ⟨_, _, unknown, same⟩ | ⟨known, unmarked, same⟩ | ⟨known, -, same⟩
  · simp [same, unknown]
  · simp [same, known, ofValues_overlaid_of_unmarked unmarked]
  · rw [same, known]
    cases ofValues (s.overlaid o) <;> simp [Except.map]

theorem resolveIn_ok_iff :
    s.resolveIn around o = .ok t ↔ ¬ o.NamesNoField ∧ s.Overridden o t := by
  rw [resolveIn, ← Overrides.unknownKey?_eq_none_iff, ← ofValues_overlaid_iff]
  rcases overrideIn?_cases (s := s) (o := o) first with
    ⟨_, _, unknown, same⟩ | ⟨known, unmarked, same⟩ | ⟨known, -, same⟩
  · simp [same, unknown, bind, Except.bind]
  · rw [same, known, ofValues_overlaid_of_unmarked unmarked, and_iff_right rfl]
    rfl
  · rw [same, known, and_iff_right rfl]
    cases ofValues (s.overlaid o) <;> rfl

end

/-- How overrides of settings are resolved. -/
structure Resolves (s : Settings α) (o : Overrides α)
    (outcome : Except Error (Option (Settings α))) : Prop where
  unknown : (∃ key name, outcome = .error (.unknownField key name)) ↔ o.NamesNoField
  /-- The first key that names no field is reported. -/
  reported : ∀ key name, outcome = .error (.unknownField key name) ↔
    ∃ before v after, o = before ++ (key, v) :: after ∧ key = Sources.mark ++ name ∧
      (∀ f : Field, f.name ≠ name) ∧ ¬ Overrides.NamesNoField before
  invalid : (∃ faults, outcome = .error (.invalidSettings faults)) ↔
    ¬ o.NamesNoField ∧
      ∃ f v fault, o.value? (Overrides.keyOf f) = some v ∧ f.read v = .error fault
  /-- The faults are those of the values given, and no others. -/
  told : ∀ faults, outcome = .error (.invalidSettings faults) → ∀ f fault,
    (f, fault) ∈ faults ↔
      ∃ v, o.value? (Overrides.keyOf f) = some v ∧ f.read v = .error fault
  resolved : ¬ o.NamesNoField →
    (∀ f v, o.value? (Overrides.keyOf f) = some v → ∃ w, f.read v = .ok w) →
      ∃ t, outcome = .ok t ∧ s.Overridden o (t.getD s)
  itself : outcome = .ok none ↔ ¬ ∃ name v, (Sources.mark ++ name, v) ∈ o

variable [LawfulCoercion α]

theorem overrideIn?_resolves (first : around.GivenFirst) (s : Settings α) (o : Overrides α) :
    s.Resolves o (s.overrideIn? around o) where
  unknown := by
    rw [← not_iff_not, ← Overrides.unknownKey?_eq_none_iff]
    simp only [overrideIn?_unknown_iff first, Option.eq_none_iff_forall_ne_some, Prod.forall,
      not_exists, ne_eq]
  reported key name := by rw [overrideIn?_unknown_iff first, Overrides.unknownKey?_eq_some_iff]
  invalid := by
    simp only [overrideIn?_invalid_iff first, ofValues_error_iff, overlaid_error_iff]
    grind
  told faults invalid f fault := by
    obtain ⟨-, invalid⟩ := (overrideIn?_invalid_iff first).mp invalid
    obtain ⟨same, -⟩ := ofValues_error_iff.mp invalid
    obtain rfl := Error.invalidSettings.inj same
    rw [mem_faults, overlaid_error_iff]
  resolved known fits := by
    cases made : ofValues (s.overlaid o) with
    | ok t =>
      have overridden := ofValues_overlaid_iff.mp made
      rw [overrideIn?_of_known first known, made]
      cases unmarked : o.updates.isEmpty with
      | true => exact ⟨none, rfl, overridden_self unmarked⟩
      | false => exact ⟨some t, rfl, overridden⟩
    | error e =>
      obtain ⟨-, f, fault, failed⟩ := ofValues_error_iff.mp made
      obtain ⟨v, given, failed⟩ := overlaid_error_iff.mp failed
      obtain ⟨w, read⟩ := fits f v given
      cases failed.symm.trans read
  itself := by rw [overrideIn?_ok_none_iff first, Overrides.updates_isEmpty_iff]

/-- Overrides are resolved field by field, whatever the call finds around it, and the settings they
are put over stay as they are. Overriding the resolved settings again is overriding the first ones
by the updated overrides. Two things are asked for: values of a field's own kind are read as
themselves, and what a call is given comes before what it finds elsewhere. -/
theorem overridden_field_by_field [Numeral α] [Roster α] (s : Settings α) (a b : Overrides α) :
    (∀ around : Sources α, around.GivenFirst → s.Resolves a (s.overrideIn? around a) ∧
      s.overrideIn? around a = s.override? a ∧ s.resolveIn around a = s.resolve a) ∧
    (∀ {β : Type} (e : Explorer α) (q : Request α β) (clock : Clock α), e.settings = s →
      (e.choose q a clock).2.1.settings = s) ∧
    ∀ around later other : Sources α, around.GivenFirst → later.GivenFirst → other.GivenFirst →
      ∀ u, (do
        let t ← s.resolveIn around a
        t.resolveIn later b) = .ok u → s.resolveIn other (a.updated b) = .ok u := by
  refine ⟨?_, ?_, ?_⟩
  · intro around first
    have same : s.overrideIn? around a = s.override? a := overrideIn?_eq first
    refine ⟨overrideIn?_resolves first s a, same, ?_⟩
    rw [resolve, resolveIn, resolveIn, same, override?]
  · rintro β e q clock rfl
    rcases Explorer.choose_cases e q a clock with ⟨_, chosen⟩ | ⟨_, _, -, -, chosen⟩
    · rw [chosen]
    · rw [chosen]
  · intro around later other first firstLater firstOther u resolved
    obtain ⟨t, once, twice⟩ := bind_ok resolved
    obtain ⟨known, once⟩ := (resolveIn_ok_iff first).mp once
    obtain ⟨knownLater, twice⟩ := (resolveIn_ok_iff firstLater).mp twice
    exact (resolveIn_ok_iff firstOther).mpr
      ⟨Overrides.namesNoField_updated known knownLater, once.trans twice⟩

end Settings

/-! ### Environments -/

namespace Surroundings

theorem firstNamed_eq_lookup {β : Type} {entries : List (String × β)} {name : String}
    (plain : ∀ entry ∈ entries, Text.lowerAscii entry.1 = entry.1) :
    firstNamed name entries = entries.lookup name := by
  unfold firstNamed
  induction entries with
  | nil => rfl
  | cons entry rest ih =>
    rw [List.find?_cons, plain entry List.mem_cons_self, List.lookup_cons, BEq.comm (a := name)]
    cases entry.1 == name with
    | true => rfl
    | false => exact ih fun entry listed => plain entry (List.mem_cons_of_mem _ listed)

theorem lowerAscii_name (f : Field) : Text.lowerAscii f.name = f.name := by
  cases f <;> decide +kernel

/-- The environment and its file come after what a call is given. -/
theorem sources_givenFirst {α : Type} [Scalar α] [Numeral α] (around : Surroundings) :
    (around.sources : Sources α).GivenFirst := by
  intro values f v named found
  have plain : ∀ entry ∈ values, Text.lowerAscii entry.1 = entry.1 := by
    intro entry listed
    obtain ⟨g, same⟩ := named entry listed
    rw [← same, lowerAscii_name]
  simp only [sources, firstNamed_eq_lookup plain, found]

/-- An environment that would have fields otherwise. -/
def contrary : Surroundings where
  environment := [("EXPLORE_EPSILON", "0.25"), ("EXPLORE_STRATEGY", "bag")]
  file := some "EXPLORE_SOFTMAX_LAMBDA=7"

end Surroundings

/-- Half of the mass by text, beside a note that is no override. -/
def Overrides.toHalf : Overrides Float :=
  [("note", .integer 1), ("explore_epsilon", .text " 0.5 ")]

/-- All of the mass, and a clamp by word. -/
def Overrides.toWhole : Overrides Float :=
  [("explore_epsilon", .integer 1), ("explore_clamp_top_action", .text "yes")]

theorem Settings.overridden_field_by_field_of_two :
    ∃ t u, watched.resolveIn Surroundings.contrary.sources .toHalf = .ok t ∧
      t.resolveIn .given .toWhole = .ok u ∧
      watched.resolveIn Surroundings.contrary.sources (Overrides.toHalf.updated .toWhole) = .ok u ∧
      u.strategy = "epsilon_greedy" ∧ u.clampTop = true ∧ (u.epsilon == 1) = true := by
  have made : (do
      let t ← watched.resolveIn Surroundings.contrary.sources .toHalf
      t.resolveIn .given .toWhole : Except Error (Settings Float)).toOption.map
        (fun u => (u.strategy, u.clampTop, u.epsilon == 1)) =
          some ("epsilon_greedy", true, true) := by
    decide +kernel
  obtain ⟨u, found, told⟩ := Option.map_eq_some_iff.mp made
  have resolved := ok_of_toOption found
  obtain ⟨t, first, second⟩ := bind_ok resolved
  obtain ⟨-, -, twice⟩ := overridden_field_by_field watched .toHalf .toWhole
  have contrary := Surroundings.contrary.sources_givenFirst (α := Float)
  obtain ⟨strategy, told⟩ := Prod.mk.inj told
  obtain ⟨clamp, epsilon⟩ := Prod.mk.inj told
  exact ⟨t, u, first, second,
    twice _ _ _ contrary Sources.given_givenFirst contrary u resolved, strategy, clamp, epsilon⟩

end SeededChoice
