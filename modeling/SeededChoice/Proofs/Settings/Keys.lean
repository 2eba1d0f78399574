import Mathlib.Data.Bool.Basic
import Mathlib.Data.List.Basic
import SeededChoice.Settings.Override

/-!
# Keys of overrides

Overrides are a mapping from keys to values. A marked key names a field by what follows its mark,
and the first one that names none is reported. Updating overrides puts the later values over the
earlier ones.
-/

namespace SeededChoice

variable {α : Type} [Coercion α]

namespace Overrides

/-- The key that overrides a field. -/
def keyOf (f : Field) : String := Sources.mark ++ f.name

theorem fieldName?_eq_some_iff {key name : String} :
    fieldName? key = some name ↔ key = Sources.mark ++ name := by
  have letters : key = Sources.mark ++ name ↔
      key.toList = Sources.mark.toList ++ name.toList := by
    rw [← String.toList_append, String.toList_inj]
  rw [fieldName?, letters]
  constructor
  · intro named
    split at named
    · rename_i marked
      obtain rfl := Option.some.inj named
      calc
        key.toList = key.toList.take _ ++ key.toList.drop Sources.mark.toList.length :=
          (List.take_append_drop ..).symm
        _ = _ := by rw [eq_of_beq marked, String.toList_ofList]
    · cases named
  · intro whole
    simp [whole]

variable (o : Overrides α)

/-- What is given under a key. Of several values the last one counts. -/
def value? (key : String) : Option (Coercion.Given α) := o.reverse.lookup key

/-- Some marked key names no field. -/
def NamesNoField : Prop :=
  ∃ name v, (Sources.mark ++ name, v) ∈ o ∧ ∀ f : Field, f.name ≠ name

/-- Sets a key, in its old place if it has one. -/
def put (key : String) (v : Coercion.Given α) : Overrides α :=
  if o.any (·.1 == key) then o.map fun entry => if entry.1 == key then (key, v) else entry
  else o ++ [(key, v)]

/-- Overrides that are updated by others, key by key. -/
def updated (more : Overrides α) : Overrides α :=
  more.foldl (fun o entry => o.put entry.1 entry.2) o

variable {o} {key name : String} {v : Coercion.Given α}

theorem lookup_replaced (entries : List (String × Coercion.Given α)) (other : String) :
    (entries.map fun entry => if entry.1 == key then (key, v) else entry).lookup other =
      if other = key ∧ entries.any (·.1 == key) then some v else entries.lookup other := by
  induction entries with
  | nil => simp
  | cons entry rest ih =>
    obtain ⟨k, w⟩ := entry
    grind

theorem value?_put (other : String) :
    (o.put key v).value? other = if other = key then some v else o.value? other := by
  unfold put value?
  split
  · rename_i present
    rw [← List.map_reverse, lookup_replaced]
    simp [present]
  · rw [List.reverse_append]
    grind

theorem value?_updated (more : Overrides α) (key : String) :
    (o.updated more).value? key = (more.value? key).or (o.value? key) := by
  unfold updated
  induction more generalizing o with
  | nil => rfl
  | cons entry rest ih =>
    rw [List.foldl_cons, ih, value?_put]
    unfold value?
    rw [List.reverse_cons, List.lookup_append]
    grind

theorem value?_isSome_iff : (o.value? key).isSome ↔ ∃ v, (key, v) ∈ o := by
  rw [Option.isSome_iff_ne_none, value?, ne_eq, List.lookup_eq_none_iff]
  simp

/-! ### Keys that name no field -/

theorem namesNoField_iff :
    o.NamesNoField ↔
      ∃ name, (o.value? (Sources.mark ++ name)).isSome ∧ ∀ f : Field, f.name ≠ name := by
  simp only [NamesNoField, value?_isSome_iff]
  grind

theorem ofName?_isNone_iff : (Field.ofName? name).isNone ↔ ∀ f : Field, f.name ≠ name := by
  rw [Option.isNone_iff_eq_none, Field.ofName?, List.find?_eq_none]
  simp [Field.mem_all]

/-- What is reported of one key, if it is marked and names no field. -/
def report? (key : String) : Option (String × String) :=
  match fieldName? key with
  | some name => if (Field.ofName? name).isNone then some (key, name) else none
  | none => none

theorem unknownKey?_eq : o.unknownKey? = o.findSome? fun entry => report? entry.1 := rfl

theorem report?_eq_some_iff {other : String} : report? key = some (other, name) ↔
    other = key ∧ key = Sources.mark ++ name ∧ ∀ f : Field, f.name ≠ name := by
  rw [report?, ← ofName?_isNone_iff, ← fieldName?_eq_some_iff]
  grind

theorem report?_eq_none_iff :
    report? key = none ↔ ∀ name, key = Sources.mark ++ name → ∃ f : Field, f.name = name := by
  rw [Option.eq_none_iff_forall_ne_some]
  simp only [ne_eq, Prod.forall, report?_eq_some_iff]
  grind

theorem unknownKey?_eq_some_iff : o.unknownKey? = some (key, name) ↔
    ∃ before v after, o = before ++ (key, v) :: after ∧ key = Sources.mark ++ name ∧
      (∀ f : Field, f.name ≠ name) ∧ ¬ NamesNoField before := by
  rw [unknownKey?_eq, List.findSome?_eq_some_iff]
  simp only [report?_eq_some_iff, report?_eq_none_iff, NamesNoField]
  grind

theorem unknownKey?_eq_none_iff : o.unknownKey? = none ↔ ¬ o.NamesNoField := by
  rw [unknownKey?_eq, List.findSome?_eq_none_iff]
  simp only [report?_eq_none_iff, NamesNoField]
  grind

/-! ### Values behind keys -/

theorem updates_cons_marked (rest : Overrides α) :
    updates ((Sources.mark ++ name, v) :: rest) = (name, v) :: rest.updates :=
  List.filterMap_cons_some (congrArg (Option.map _) (fieldName?_eq_some_iff.mpr rfl))

theorem updates_cons_unmarked (unmarked : fieldName? key = none) (rest : Overrides α) :
    updates ((key, v) :: rest) = rest.updates :=
  List.filterMap_cons_none (congrArg (Option.map _) unmarked)

theorem mark_append_inj {other : String} :
    Sources.mark ++ name = Sources.mark ++ other ↔ name = other := by
  rw [← fieldName?_eq_some_iff, fieldName?_eq_some_iff.mpr rfl, Option.some.injEq, eq_comm]

theorem lookup_updates (entries : Overrides α) (name : String) :
    entries.updates.lookup name = List.lookup (Sources.mark ++ name) entries := by
  induction entries with
  | nil => rfl
  | cons entry rest ih =>
    obtain ⟨key, v⟩ := entry
    cases named : fieldName? key with
    | none =>
      have other : Sources.mark ++ name ≠ key := fun same => by
        rw [fieldName?_eq_some_iff.mpr same.symm] at named
        cases named
      rw [updates_cons_unmarked named, ih, List.lookup_cons, beq_false_of_ne other]
    | some own =>
      obtain rfl := fieldName?_eq_some_iff.mp named
      have same : (Sources.mark ++ name == Sources.mark ++ own) = (name == own) := by
        rw [Bool.eq_iff_iff, beq_iff_eq, beq_iff_eq, mark_append_inj]
      rw [updates_cons_marked, List.lookup_cons, List.lookup_cons, same, ih]

theorem lookup_reverse_updates (name : String) :
    o.updates.reverse.lookup name = o.value? (Sources.mark ++ name) := by
  rw [updates, ← List.filterMap_reverse]
  exact lookup_updates o.reverse name

theorem mem_updates : (name, v) ∈ o.updates ↔ (Sources.mark ++ name, v) ∈ o := by
  simp only [updates, List.mem_filterMap, Prod.exists, Option.map_eq_some_iff, Prod.mk.injEq,
    fieldName?_eq_some_iff]
  grind

theorem updates_isEmpty_iff :
    o.updates.isEmpty = true ↔ ¬ ∃ name v, (Sources.mark ++ name, v) ∈ o := by
  simp only [List.isEmpty_iff, List.eq_nil_iff_forall_not_mem, Prod.forall, mem_updates,
    not_exists]

theorem namesNoField_updated {more : Overrides α} (known : ¬ o.NamesNoField)
    (moreKnown : ¬ more.NamesNoField) : ¬ (o.updated more).NamesNoField := by
  rw [namesNoField_iff] at known moreKnown ⊢
  simp only [value?_updated, Option.isSome_or]
  grind

end Overrides

end SeededChoice
