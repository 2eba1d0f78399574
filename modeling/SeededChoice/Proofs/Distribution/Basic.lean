import SeededChoice.Proofs.Buffer.Writing

/-!
# Distributions

Numbers that are not negative and sum to one, and the updates and plans that write them.
-/

namespace SeededChoice

structure IsDistribution (xs : List ℝ) : Prop where
  natural : ∀ x ∈ xs, 0 ≤ x
  total : xs.sum = 1

section
variable {xs : List ℝ}

theorem IsDistribution.ne_nil (distribution : IsDistribution xs) : xs ≠ [] := by
  rintro rfl
  exact zero_ne_one distribution.total

theorem sum_map_div (xs : List ℝ) (total : ℝ) : (xs.map (· / total)).sum = xs.sum / total := by
  simp only [div_eq_mul_inv, List.sum_map_mul_right, List.map_id']

theorem map_div_one (xs : List ℝ) : xs.map (· / 1) = xs := by
  rw [List.map_congr_left fun x _ => div_one x, List.map_id']

theorem isDistribution_scaled (natural : ∀ x ∈ xs, 0 ≤ x) (nonzero : xs.sum ≠ 0) :
    IsDistribution (xs.map (· / xs.sum)) := by
  constructor
  · intro y member
    obtain ⟨x, listed, rfl⟩ := List.mem_map.mp member
    exact div_nonneg (natural x listed) (List.sum_nonneg natural)
  · rw [sum_map_div, div_self nonzero]

theorem isDistribution_replicate {n : Nat} (nonzero : n ≠ 0) :
    IsDistribution (List.replicate n (1 / n : ℝ)) := by
  constructor
  · intro y member
    rw [(List.mem_replicate.mp member).2]
    positivity
  · rw [List.sum_replicate, nsmul_eq_mul, mul_one_div_cancel (Nat.cast_ne_zero.mpr nonzero)]

end

/-! ### Updates -/

section
variable {n : Nat} {u : Update Exact}

/-- An update that writes a distribution over `n` actions. -/
def Update.Distributes (n : Nat) : Update Exact → Prop
  | .keep => False
  | .fill value => n ≠ 0 ∧ value = .real (.finite (1 / n))
  | .assign values => ∃ xs, values = xs.map .finite ∧ IsDistribution xs ∧ xs.length = n

theorem Update.Distributes.fits (distributes : u.Distributes n) : u.Fits n := by
  cases u with
  | keep => trivial
  | fill value => exact ⟨_, distributes.2⟩
  | assign values =>
    obtain ⟨xs, rfl, -, size⟩ := distributes
    exact (List.length_map _).trans size

theorem Update.Distributes.nonzero (distributes : u.Distributes n) : n ≠ 0 := by
  cases u with
  | keep => exact distributes.elim
  | fill value => exact distributes.1
  | assign values =>
    obtain ⟨xs, -, distribution, rfl⟩ := distributes
    exact (List.length_pos_of_ne_nil distribution.ne_nil).ne'

theorem Update.Distributes.applied {entries : List Exact}
    (distributes : u.Distributes entries.length) :
    ∃ xs, u.applied entries = xs.map .finite ∧ IsDistribution xs := by
  cases u with
  | keep => exact distributes.elim
  | fill value =>
    obtain ⟨nonzero, rfl⟩ := distributes
    refine ⟨_, ?_, isDistribution_replicate nonzero⟩
    rw [Update.applied, List.map_const', List.map_replicate]
  | assign values =>
    obtain ⟨xs, rfl, distribution, -⟩ := distributes
    exact ⟨xs, rfl, distribution⟩

/-- Where nothing may be written, a distribution is refused. -/
theorem Update.Distributes.refused [Exponential] {b : Buffer Exact} (flat : b.rows = none)
    (locked : ¬ b.storage.Writable) (distributes : u.Distributes b.entries.length) :
    (b.update u).1 ≠ .ok () := by
  have length : b.length ≠ 0 := by
    rw [Buffer.length_flat flat]
    exact distributes.nonzero
  cases u with
  | keep => exact distributes.elim
  | fill value =>
    rcases Buffer.not_writable locked with frozen | readOnly
    · simp [Buffer.update, Buffer.fill, frozen, length]
    · simp [Buffer.update, Buffer.fill, readOnly]
  | assign values =>
    obtain ⟨xs, rfl, distribution, -⟩ := distributes
    rcases Buffer.not_writable locked with frozen | readOnly
    · simp [Buffer.update, Buffer.assign, frozen, distribution.ne_nil]
    · simp [Buffer.update, Buffer.assign, readOnly]

/-- A plan that is refused without a write, or succeeds and writes a distribution. -/
def Planned.Generates (n : Nat) (p : Planned Status Exact) : Prop :=
  (p.answer ≠ .success ∧ p.update = .keep) ∨ (p.answer = .success ∧ p.update.Distributes n)

section
variable {p : Planned Status Exact}

theorem Generator.generates_refuse {s : Status} (failure : s ≠ .success)
    (planned : (.ok (.refuse s) : Except Error (Planned Status Exact)) = .ok p) :
    p.Generates n := by
  obtain rfl := Except.ok.inj planned
  exact Or.inl ⟨failure, rfl⟩

theorem Generator.generates_accept (distributes : u.Distributes n)
    (planned : (.ok (.accept u) : Except Error (Planned Status Exact)) = .ok p) :
    p.Generates n := by
  obtain rfl := Except.ok.inj planned
  exact Or.inr ⟨rfl, distributes⟩

theorem Planned.Generates.fits (generates : p.Generates n) :
    p.update.Fits n := by
  rcases generates with ⟨-, keep⟩ | ⟨-, distributes⟩
  · rw [keep]
    trivial
  · exact distributes.fits

end

end

end SeededChoice
