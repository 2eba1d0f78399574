import SeededChoice.Proofs.Outcome
import SeededChoice.Settings.Coercion

/-!
# Coerced settings

Each field reads its value by itself. Values make settings exactly where every field reads its own;
otherwise the error tells of each field that does not.
-/

namespace SeededChoice

variable {α : Type} [Coercion α]

/-- A value of the field's own kind is read as itself. -/
theorem Field.read_give [LawfulCoercion α] (f : Field) (x : f.kind.Carrier α) :
    f.read (Coercion.give f.kind x) = .ok x :=
  LawfulCoercion.read_give f.kind x

namespace Settings

variable {values : Field → Coercion.Given α} {s : Settings α} {f : Field} {fault : Fault}

theorem fault?_eq_some_iff {v : Coercion.Given α} :
    fault? f v = some fault ↔ f.read v = .error fault := by
  unfold fault?
  cases f.read v <;> simp

theorem mem_faults : (f, fault) ∈ faults values ↔ f.read (values f) = .error fault := by
  rw [faults, List.mem_filterMap, ← fault?_eq_some_iff]
  constructor
  · rintro ⟨g, -, told⟩
    obtain ⟨other, found, same⟩ := Option.map_eq_some_iff.mp told
    obtain ⟨rfl, rfl⟩ := Prod.mk.inj same
    exact found
  · intro told
    exact ⟨f, f.mem_all, by rw [told]; rfl⟩

theorem coerce_ok_iff : coerce values = .ok s ↔ ∀ f : Field, f.read (values f) = .ok (s.get f) := by
  constructor
  · intro coerced
    obtain ⟨_, strategy, coerced⟩ := bind_ok coerced
    obtain ⟨_, epsilon, coerced⟩ := bind_ok coerced
    obtain ⟨_, softmaxRate, coerced⟩ := bind_ok coerced
    obtain ⟨_, clampTop, coerced⟩ := bind_ok coerced
    obtain ⟨_, minimumUniform, coerced⟩ := bind_ok coerced
    obtain ⟨_, updateZeros, coerced⟩ := bind_ok coerced
    obtain ⟨_, normalize, coerced⟩ := bind_ok coerced
    obtain ⟨_, logLevel, coerced⟩ := bind_ok coerced
    obtain ⟨_, diagnostic, coerced⟩ := bind_ok coerced
    obtain rfl := Except.ok.inj coerced
    intro f
    cases f with
    | strategy => exact strategy
    | epsilon => exact epsilon
    | softmaxRate => exact softmaxRate
    | clampTop => exact clampTop
    | minimumUniform => exact minimumUniform
    | updateZeros => exact updateZeros
    | normalize => exact normalize
    | logLevel => exact logLevel
    | diagnostic => exact diagnostic
  · intro read
    simp only [coerce, read]
    rfl

/-- Coercion fails by a fault of some field. -/
theorem coerce_error (failed : coerce values = .error fault) :
    ∃ f : Field, f.read (values f) = .error fault := by
  rcases bind_error failed with failed | ⟨_, -, failed⟩
  · exact ⟨.strategy, failed⟩
  rcases bind_error failed with failed | ⟨_, -, failed⟩
  · exact ⟨.epsilon, failed⟩
  rcases bind_error failed with failed | ⟨_, -, failed⟩
  · exact ⟨.softmaxRate, failed⟩
  rcases bind_error failed with failed | ⟨_, -, failed⟩
  · exact ⟨.clampTop, failed⟩
  rcases bind_error failed with failed | ⟨_, -, failed⟩
  · exact ⟨.minimumUniform, failed⟩
  rcases bind_error failed with failed | ⟨_, -, failed⟩
  · exact ⟨.updateZeros, failed⟩
  rcases bind_error failed with failed | ⟨_, -, failed⟩
  · exact ⟨.normalize, failed⟩
  rcases bind_error failed with failed | ⟨_, -, failed⟩
  · exact ⟨.logLevel, failed⟩
  rcases bind_error failed with failed | ⟨_, -, failed⟩
  · exact ⟨.diagnostic, failed⟩
  cases failed

theorem ofValues_ok_iff :
    ofValues values = .ok s ↔ ∀ f : Field, f.read (values f) = .ok (s.get f) := by
  rw [← coerce_ok_iff, ofValues]
  cases coerce values <;> simp

theorem ofValues_error_iff {e : Error} :
    ofValues values = .error e ↔
      e = .invalidSettings (faults values) ∧
        ∃ (f : Field) (fault : Fault), f.read (values f) = .error fault := by
  rw [ofValues]
  cases coerced : coerce values with
  | ok t =>
    simp [coerce_ok_iff.mp coerced]
  | error fault =>
    obtain ⟨f, failed⟩ := coerce_error coerced
    simp only [Except.error.injEq]
    constructor
    · rintro rfl
      exact ⟨rfl, f, fault, failed⟩
    · rintro ⟨rfl, -⟩
      rfl

end Settings

end SeededChoice
