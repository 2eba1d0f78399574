import SeededChoice.Buffer
import SeededChoice.Proofs.Exact.Arithmetic
import SeededChoice.Proofs.Outcome

/-!
# Writing buffers

What an update leaves in a buffer of one row. A buffer that may not be written stays as it is; one
that holds exact numbers holds the values of the update.
-/

namespace SeededChoice

/-- Storage that its owner may write. -/
def Storage.Writable (s : Storage) : Prop := s ≠ .frozen ∧ s ≠ .readOnly

/-- Storage of fractions, not of integers alone. -/
def Storage.KeepsReals (s : Storage) : Prop := s ≠ .grid .integer

instance (s : Storage) : Decidable s.Writable := inferInstanceAs (Decidable (_ ∧ _))

instance (s : Storage) : Decidable s.KeepsReals := inferInstanceAs (Decidable (_ ≠ _))

/-- What entries become under an update with real values. -/
def Update.applied {α : Type} (entries : List α) : Update α → List α
  | .keep => entries
  | .fill (.real x) => entries.map fun _ => x
  | .fill _ => entries
  | .assign values => values

/-- An update with one real value for each of `n` entries. -/
def Update.Fits {α : Type} (n : Nat) : Update α → Prop
  | .keep => True
  | .fill value => ∃ x, value = .real x
  | .assign values => values.length = n

theorem Update.length_applied {α : Type} {u : Update α} {entries : List α}
    (fits : u.Fits entries.length) : (u.applied entries).length = entries.length := by
  cases u with
  | keep => rfl
  | fill value =>
    obtain ⟨x, rfl⟩ := fits
    exact List.length_map _
  | assign values => exact fits

namespace Buffer

section
variable {α : Type} {b : Buffer α}

theorem length_flat (flat : b.rows = none) : b.length = b.entries.length := by
  rw [length, flat, Option.getD_none]

variable [Scalar α]

theorem perform_error {ρ : Type} (e : Error) :
    b.perform (.error e : Except Error (Planned ρ α)) = (.error e, b) := rfl

theorem perform_ok {ρ : Type} {p : Planned ρ α} {answer : ρ}
    (done : (b.perform (.ok p)).1 = .ok answer) :
    (b.update p.update).1 = .ok () ∧ p.answer = answer := by
  obtain ⟨_, updated, answered⟩ := map_ok done
  exact ⟨updated, answered⟩

theorem not_writable {s : Storage} (locked : ¬ s.Writable) : s = .frozen ∨ s = .readOnly := by
  by_contra neither
  exact locked (not_or.mp neither)

theorem fill_locked (locked : ¬ b.storage.Writable) {value : Argument α} {after : Buffer α}
    (filled : b.fill value = .ok after) : after = b := by
  rcases not_writable locked with frozen | readOnly
  · simp only [fill, frozen] at filled
    split at filled
    · exact (Except.ok.inj filled).symm
    · cases filled
  · simp only [fill, readOnly] at filled
    cases filled

theorem update_locked (locked : ¬ b.storage.Writable) (u : Update α) : (b.update u).2 = b := by
  cases u with
  | keep => rfl
  | fill value =>
    rw [update]
    split
    · rename_i filled
      exact fill_locked locked filled
    · rfl
  | assign values =>
    rcases not_writable locked with frozen | readOnly
    · simp only [update, assign, frozen]
    · simp only [update, assign, readOnly]

theorem perform_locked {ρ : Type} (locked : ¬ b.storage.Writable)
    (plan : Except Error (Planned ρ α)) : (b.perform plan).2 = b := by
  cases plan with
  | error e => rfl
  | ok p => exact update_locked locked p.update

theorem update_assign (flat : b.rows = none) (writable : b.storage.Writable) {values : List α}
    (fits : values.length = b.entries.length) :
    b.update (.assign values) =
      (.ok (), { b with entries := values.map b.storage.hold }) := by
  have size : values.length = b.length := fits.trans (length_flat flat).symm
  have items : b.assignItems values = (.ok (), { b with entries := values.map b.storage.hold }) := by
    rw [assignItems, if_neg (by omega), if_pos size, ← size, List.take_length]
    obtain ⟨storage, rows, entries⟩ := b
    obtain rfl : rows = none := flat
    rfl
  rw [update, assign]
  split
  · exact items
  · exact items
  · rw [if_pos fits]
    rfl
  · rename_i frozen
    exact absurd frozen writable.1
  · rename_i readOnly
    exact absurd readOnly writable.2

end

theorem map_hold {α : Type} [Scalar α] {b : Buffer α} (held : ∀ x : α, b.storage.hold x = x)
    (values : List α) : values.map b.storage.hold = values := by
  rw [List.map_congr_left fun x _ => held x, List.map_id']

section
variable {α : Type} [Scalar α] {b : Buffer α} (flat : b.rows = none)
  (writable : b.storage.Writable) (held : ∀ x : α, b.storage.hold x = x)
  (received : ∀ x : α, b.storage.receive (.real x) = .ok x)
include flat writable received

theorem fill_kept (x : α) :
    b.fill (.real x) = .ok { b with entries := b.entries.map fun _ => x } := by
  have entries : b.fillEntries (.real x) = .ok { b with entries := b.entries.map fun _ => x } := by
    rw [fillEntries, received]
    rfl
  have untouched : b.length = 0 → b = { b with entries := b.entries.map fun _ => x } := by
    intro empty
    rw [length_flat flat] at empty
    obtain ⟨storage, rows, _⟩ := b
    obtain rfl := List.length_eq_zero_iff.mp empty
    rfl
  rw [fill]
  split
  · split
    · rename_i empty
      exact congrArg _ (untouched empty)
    · have all : b.entries.map (fun _ => x) = List.replicate b.entries.length x := List.map_const' ..
      rw [fillItems, received, length_flat flat, all, flat]
      rfl
  · split
    · rename_i empty
      exact congrArg _ (untouched empty)
    · exact entries
  · exact entries
  · rename_i frozen
    exact absurd frozen writable.1
  · rename_i readOnly
    exact absurd readOnly writable.2

include held

/-- A plan that fits a buffer that rounds nothing is carried out to the letter. -/
theorem perform_kept {ρ : Type} {p : Planned ρ α} (fits : p.update.Fits b.entries.length) :
    b.perform (.ok p) = (.ok p.answer, { b with entries := p.update.applied b.entries }) := by
  obtain ⟨answer, update⟩ := p
  cases update with
  | keep => rfl
  | fill value =>
    obtain ⟨x, rfl⟩ := fits
    rw [perform, Buffer.update, fill_kept flat writable received]
    rfl
  | assign values =>
    rw [perform, update_assign flat writable fits, map_hold held]
    rfl

end

section
variable [Exponential]

theorem hold_exact {s : Storage} (keeps : s.KeepsReals) (x : Exact) : s.hold x = x := by
  cases s with
  | row p => cases p <;> rfl
  | grid f =>
    cases f with
    | double | single => rfl
    | integer => exact absurd rfl keeps
  | list | frozen | readOnly => rfl

theorem receive_exact {s : Storage} (keeps : s.KeepsReals) (x : Exact) :
    s.receive (.real x) = .ok x := by
  cases s with
  | row p => cases p <;> rfl
  | grid f =>
    cases f with
    | double | single => rfl
    | integer => exact absurd rfl keeps
  | list | frozen | readOnly => rfl

/-- A plan that fits a buffer of exact numbers is carried out to the letter. -/
theorem perform_exact {b : Buffer Exact} (flat : b.rows = none) (writable : b.storage.Writable)
    (keeps : b.storage.KeepsReals) {ρ : Type} {p : Planned ρ Exact}
    (fits : p.update.Fits b.entries.length) :
    b.perform (.ok p) = (.ok p.answer, { b with entries := p.update.applied b.entries }) :=
  perform_kept flat writable (hold_exact keeps) (receive_exact keeps) fits

end

end Buffer

/-! ### Storage that rounds nothing -/

/-- Storage that holds every assigned value as it is. -/
def Storage.Faithful : Storage → Prop
  | .row p => p = .double
  | .grid f => f = .double
  | .list | .frozen | .readOnly => True

section
variable {α : Type} [Scalar α] {b : Buffer α}

theorem Storage.hold_faithful {s : Storage} (faithful : s.Faithful) (x : α) : s.hold x = x := by
  cases s with
  | row _ | grid _ =>
    obtain rfl := faithful
    rfl
  | list | frozen | readOnly => rfl

theorem Storage.receive_faithful {s : Storage} (faithful : s.Faithful) (x : α) :
    s.receive (.real x) = .ok x := by
  cases s with
  | row _ | grid _ =>
    obtain rfl := faithful
    rfl
  | list | frozen | readOnly => rfl

namespace Buffer

theorem perform_faithful (flat : b.rows = none) (writable : b.storage.Writable)
    (faithful : b.storage.Faithful) {ρ : Type} {p : Planned ρ α}
    (fits : p.update.Fits b.entries.length) :
    b.perform (.ok p) = (.ok p.answer, { b with entries := p.update.applied b.entries }) :=
  perform_kept flat writable (Storage.hold_faithful faithful) (Storage.receive_faithful faithful)
    fits

variable (held : ∀ x : α, b.storage.hold x = x)
include held

theorem assignItems_held {values : List α} (done : (b.assignItems values).1 = .ok ()) :
    (b.assignItems values).2.entries = values ∧ (b.assignItems values).2.length = b.length := by
  unfold assignItems at done ⊢
  split at done
  · cases done
  rename_i enough
  rw [if_neg enough]
  dsimp only at done ⊢
  split at done
  · rename_i size
    have entries : (values.take b.length).map b.storage.hold = values := by
      rw [← size, List.take_length, map_hold held]
    exact ⟨entries, (congrArg List.length entries).trans size⟩
  · cases done

theorem assign_held {values : List α} (fits : values.length = b.entries.length)
    (done : (b.assign values).1 = .ok ()) :
    (b.assign values).2.entries = values ∧ (b.assign values).2.length = b.length := by
  unfold assign at done ⊢
  split at done
  · exact assignItems_held held done
  · exact assignItems_held held done
  · rw [if_pos fits]
    have entries := map_hold held values
    refine ⟨entries, ?_⟩
    show b.rows.getD (values.map b.storage.hold).length = _
    rw [entries, fits]
    rfl
  · dsimp only at done
    split at done
    · rename_i empty
      obtain rfl := List.isEmpty_iff.mp empty
      exact ⟨List.length_eq_zero_iff.mp fits.symm, rfl⟩
    · cases done
  · cases done

/-- A plan that succeeds leaves its values, in whatever storage they were written to. -/
theorem perform_held {ρ : Type} {p : Planned ρ α} {answer : ρ}
    (fits : p.update.Fits b.entries.length) (unfilled : ∀ value, p.update ≠ .fill value)
    (done : (b.perform (.ok p)).1 = .ok answer) :
    p.answer = answer ∧ (b.perform (.ok p)).2.length = b.length ∧
      (b.perform (.ok p)).2.entries = p.update.applied b.entries := by
  obtain ⟨updated, answered⟩ := perform_ok done
  refine ⟨answered, ?_⟩
  obtain ⟨answer, update⟩ := p
  cases update with
  | keep => exact ⟨rfl, rfl⟩
  | fill value => exact absurd rfl (unfilled value)
  | assign values => exact (assign_held held fits updated).symm

end Buffer

end

end SeededChoice
