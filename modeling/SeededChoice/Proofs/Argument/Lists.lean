import SeededChoice.Argument
import SeededChoice.Proofs.Outcome

/-!
# Lists of numbers

A list of numbers is flat, so that it is read as the same row of weights; a list of integers is also
read as their row.
-/

namespace SeededChoice.Argument

variable {α : Type} [Scalar α]

/-- The argument as a list of reals. -/
def toReals (a : Argument α) : Except Error (List α) := do
  (← a.toItems).mapM toReal

/-- A list of numbers is flat, so it is read as the same row of weights. -/
theorem flat_of_toReal {items : List (Argument α)} {xs : List α}
    (read : items.mapM toReal = .ok xs) :
    items.length = xs.length ∧ items.mapM toWeight = .ok xs ∧ leavesOfAll items = items ∧
      shapes? items = some (items.map fun _ => []) := by
  induction items generalizing xs with
  | nil =>
    obtain rfl := Except.ok.inj read
    exact ⟨rfl, rfl, rfl, rfl⟩
  | cons item items ih =>
    rw [List.mapM_cons] at read
    obtain ⟨x, first, read⟩ := bind_ok read
    obtain ⟨others, rest, read⟩ := bind_ok read
    obtain rfl := Except.ok.inj read
    obtain ⟨length, weights, leaves, shapes⟩ := ih rest
    have weight : item.toWeight = .ok x ∧ item.leaves = [item] ∧ item.shape? = some [] := by
      cases item with
      | absent | list => cases first
      | integer n => exact ⟨first, rfl, rfl⟩
      | real y => exact ⟨first, rfl, rfl⟩
    refine ⟨congrArg Nat.succ length, ?_, ?_, ?_⟩
    · rw [List.mapM_cons, weight.1, weights]
      rfl
    · rw [leavesOfAll, weight.2.1, leaves]
      rfl
    · rw [shapes?, weight.2.2, shapes]
      rfl

theorem toReals_ok {a : Argument α} {xs : List α} (read : a.toReals = .ok xs) :
    a.length = .ok xs.length ∧ a.toWeights = .ok xs := by
  obtain ⟨items, listed, read⟩ := bind_ok read
  obtain ⟨length, weights, leaves, shapes⟩ := flat_of_toReal read
  cases a with
  | absent | integer | real => cases listed
  | list others =>
    obtain rfl := Except.ok.inj listed
    have regular : (Argument.list others).shape?.isSome = true := by
      cases others with
      | nil => rfl
      | cons item others =>
        rw [shape?, shapes]
        simp
    constructor
    · rw [← length]
      rfl
    · rw [toWeights, toLeaves, if_pos regular, Argument.leaves, leaves]
      exact weights

/-! ### Integers -/

omit [Scalar α] in
theorem toIndexes_integers (ns : List Int) :
    (list (ns.map integer) : Argument α).toIndexes = .ok ns := by
  show (ns.map integer).mapM toIndex = _
  induction ns with
  | nil => rfl
  | cons n rest ih =>
    rw [List.map_cons, List.mapM_cons, ih]
    rfl

theorem toReals_integers {ns : List Int} {xs : List α}
    (held : ns.map Scalar.ofInt? = xs.map some) :
    (list (ns.map integer) : Argument α).toReals = .ok xs := by
  show (ns.map integer).mapM toReal = _
  induction ns generalizing xs with
  | nil =>
    obtain rfl := List.map_eq_nil_iff.mp held.symm
    rfl
  | cons n rest ih =>
    obtain ⟨x, others, rfl, first, later⟩ := List.map_eq_cons_iff.mp held.symm
    have number : (integer n).toReal = .ok x := by
      rw [toReal, ofInteger, ← first]
    rw [List.map_cons, List.mapM_cons, number, ih later.symm]
    rfl

end SeededChoice.Argument
