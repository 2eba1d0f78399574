/-!
# Outcomes

What is known of the parts of a computation that has given a result.
-/

namespace SeededChoice

variable {ε α β γ : Type}

theorem bind_ok {x : Except ε α} {f : α → Except ε β} {b : β} (done : (x >>= f) = .ok b) :
    ∃ a, x = .ok a ∧ f a = .ok b := by
  cases x with
  | error e => cases done
  | ok a => exact ⟨a, rfl, done⟩

theorem map_ok {x : Except ε α} {f : α → β} {b : β} (done : x.map f = .ok b) :
    ∃ a, x = .ok a ∧ f a = b := by
  cases x with
  | error e => cases done
  | ok a => exact ⟨a, rfl, Except.ok.inj done⟩

theorem map_ok_iff {x : Except ε α} {f : α → β} {a : α}
    (injective : ∀ {b c : α}, f b = f c → b = c) : x.map f = .ok (f a) ↔ x = .ok a := by
  constructor
  · intro done
    obtain ⟨b, rfl, same⟩ := map_ok done
    rw [injective same]
  · rintro rfl
    rfl

theorem map_error_iff {x : Except ε α} {f : α → β} {e : ε} :
    x.map f = .error e ↔ x = .error e := by
  cases x with
  | error other => simp [Except.map]
  | ok a => simp [Except.map]

/-- A computation fails in its first part or in what comes after it. -/
theorem bind_error {x : Except ε α} {f : α → Except ε β} {e : ε} (failed : (x >>= f) = .error e) :
    x = .error e ∨ ∃ a, x = .ok a ∧ f a = .error e := by
  cases x with
  | error other => exact .inl (congrArg Except.error (Except.error.inj failed))
  | ok a => exact .inr ⟨a, rfl, failed⟩

/-- Two computations that go on alike after the same first part. -/
theorem bind_eq_map {x : Except ε α} {f : α → Except ε β} {g : α → Except ε γ} {h : γ → β}
    (each : ∀ a, f a = (g a).map h) : (x >>= f) = (x >>= g).map h := by
  cases x with
  | error e => rfl
  | ok a => exact each a

/-- What has given a result gives it again. -/
theorem bind_again {x : Except ε α} {f : α → Except ε β} :
    (x >>= fun _ => x >>= f) = x >>= f := by
  cases x with
  | error e => rfl
  | ok a => rfl

/-- A change of the second part of a result does not show in the first. -/
theorem map_fst_map {x : Except ε (α × β)} {f : α × β → α × γ} (same : ∀ p, (f p).1 = p.1) :
    (x.map f).map Prod.fst = x.map Prod.fst := by
  cases x with
  | error e => rfl
  | ok p => exact congrArg Except.ok (same p)

theorem exists_ok {x : Except ε α} (valid : x.isOk = true) : ∃ a, x = .ok a := by
  cases x with
  | error e => cases valid
  | ok a => exact ⟨a, rfl⟩

theorem ok_of_toOption {x : Except ε α} {a : α} (found : x.toOption = some a) : x = .ok a := by
  cases x with
  | error e => cases found
  | ok b => exact congrArg Except.ok (Option.some.inj found)

theorem exists_error {x : Except ε α} (invalid : x.isOk = false) : ∃ e, x = .error e := by
  cases x with
  | error e => exact ⟨e, rfl⟩
  | ok a => cases invalid

end SeededChoice
