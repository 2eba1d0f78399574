import SeededChoice.Operation
import SeededChoice.Proofs.Floor.Enforce

/-!
# Floors join

A floor enforced after another one leaves what the higher of the two leaves by itself, whatever the
mass of the buffer and whichever floor comes first.
-/

namespace SeededChoice.Floor

section
variable {zeros : Bool} {xs ys zs : List ℝ} {floor minimum first second : ℝ}

theorem attainable_pos (positive : 0 < floor) (mass : 0 < (eligibles zeros xs).sum)
    (present : eligibles zeros xs ≠ []) : 0 < attainable zeros floor xs :=
  lt_min positive (div_pos mass (length_eligibles_pos present))

/-- Values that are all the same share of one are above any level they can attain. -/
theorem attainable_le_evened (present : eligibles zeros xs ≠ []) :
    ∀ y ∈ eligibles zeros (evened zeros xs), attainable zeros floor (evened zeros xs) ≤ y := by
  rw [attainable, sum_eligibles_evened present, length_eligibles_evened present,
    eligibles_evened present]
  intro y member
  obtain ⟨x, -, rfl⟩ := List.mem_map.mp member
  exact min_le_right _ _

/-! ### Enforcing as a relation -/

theorem enforced_idle (idle : eligibles zeros xs = [] ∨ minimum = 0) :
    Enforced zeros minimum xs ys ↔ ys = xs := by
  rw [Enforced, if_pos idle]

theorem enforced_uniform (present : eligibles zeros xs ≠ []) (positive : 0 < minimum)
    (uniform : (eligibles zeros xs).sum = 0 ∨ 999 / 1000 < minimum) :
    Enforced zeros minimum xs ys ↔ ys = evened zeros xs := by
  rw [Enforced, if_neg (not_or.mpr ⟨present, ne_of_gt positive⟩), if_pos uniform]

theorem enforced_levels (present : eligibles zeros xs ≠ []) (positive : 0 < minimum)
    (steady : ¬ ((eligibles zeros xs).sum = 0 ∨ 999 / 1000 < minimum)) :
    Enforced zeros minimum xs ys ↔
      Levels zeros (attainable zeros (minimum / xs.length) xs) xs ys := by
  rw [Enforced, if_neg (not_or.mpr ⟨present, ne_of_gt positive⟩), if_neg steady]

theorem level_pos (present : eligibles zeros xs ≠ []) (positive : 0 < minimum)
    (massive : (eligibles zeros xs).sum ≠ 0) :
    0 < attainable zeros (minimum / xs.length) xs := by
  have nonempty : xs ≠ [] := by
    rintro rfl
    exact present rfl
  have count : (0 : ℝ) < xs.length := Nat.cast_pos.mpr (List.length_pos_of_ne_nil nonempty)
  exact attainable_pos (div_pos positive count)
    (lt_of_le_of_ne (List.sum_nonneg eligibles_nonneg) (Ne.symm massive)) present

theorem Enforced.unique (least : 0 ≤ minimum) (once : Enforced zeros minimum xs ys)
    (again : Enforced zeros minimum xs zs) : ys = zs := by
  by_cases idle : eligibles zeros xs = [] ∨ minimum = 0
  · rw [enforced_idle idle] at once again
    rw [once, again]
  obtain ⟨present, nonzero⟩ := not_or.mp idle
  have positive := lt_of_le_of_ne least (Ne.symm nonzero)
  by_cases uniform : (eligibles zeros xs).sum = 0 ∨ 999 / 1000 < minimum
  · rw [enforced_uniform present positive uniform] at once again
    rw [once, again]
  · rw [enforced_levels present positive uniform] at once again
    exact once.unique (level_pos present positive (not_or.mp uniform).1) again

theorem Enforced.length_eq (enforced : Enforced zeros minimum xs ys) : ys.length = xs.length := by
  unfold Enforced at enforced
  split at enforced
  · rw [enforced]
  split at enforced
  · rw [enforced, length_evened]
  · exact enforced.length_eq

/-- Equal shares of one stay under any floor. -/
theorem enforced_evened (present : eligibles zeros xs ≠ []) (positive : 0 < minimum) :
    Enforced zeros minimum (evened zeros xs) (evened zeros xs) := by
  have presentAfter : eligibles zeros (evened zeros xs) ≠ [] := by
    rw [eligibles_evened present]
    exact fun empty => present (List.map_eq_nil_iff.mp empty)
  by_cases uniform : (eligibles zeros (evened zeros xs)).sum = 0 ∨ 999 / 1000 < minimum
  · rw [enforced_uniform presentAfter positive uniform, evened_evened present]
  · rw [enforced_levels presentAfter positive uniform]
    exact levels_self (attainable_le_evened present)

theorem Enforced.trans (leastFirst : 0 ≤ first) (leastSecond : 0 ≤ second)
    (once : Enforced zeros first xs ys) (again : Enforced zeros second ys zs) :
    Enforced zeros (max first second) xs zs := by
  by_cases idle : eligibles zeros xs = [] ∨ first = 0
  · obtain rfl := (enforced_idle idle).mp once
    rcases idle with ineligible | zero
    · rw [enforced_idle (Or.inl ineligible)] at again ⊢
      exact again
    · rwa [zero, max_eq_right leastSecond]
  by_cases idleSecond : second = 0
  · obtain rfl := (enforced_idle (Or.inr idleSecond)).mp again
    rwa [idleSecond, max_eq_left leastFirst]
  obtain ⟨present, nonzero⟩ := not_or.mp idle
  have positive := lt_of_le_of_ne leastFirst (Ne.symm nonzero)
  have positiveSecond := lt_of_le_of_ne leastSecond (Ne.symm idleSecond)
  have positiveMax : 0 < max first second := lt_max_of_lt_left positive
  by_cases uniform : (eligibles zeros xs).sum = 0 ∨ 999 / 1000 < first
  · -- Equal shares are out of reach of the second floor, and the higher one makes them as well.
    obtain rfl := (enforced_uniform present positive uniform).mp once
    have uniformMax : (eligibles zeros xs).sum = 0 ∨ 999 / 1000 < max first second :=
      uniform.imp_right fun high => high.trans_le (le_max_left _ _)
    rw [enforced_uniform present positiveMax uniformMax]
    exact again.unique leastSecond (enforced_evened present positiveSecond)
  rw [enforced_levels present positive uniform] at once
  obtain ⟨massive, low⟩ := not_or.mp uniform
  have level := level_pos present positive massive
  have presentAfter : eligibles zeros ys ≠ [] := by
    rw [← List.length_pos_iff, once.length_eligibles level]
    exact List.length_pos_of_ne_nil present
  by_cases high : 999 / 1000 < second
  · -- The second floor looks at who is eligible only, which a level does not change.
    have highMax : 999 / 1000 < max first second := high.trans_le (le_max_right _ _)
    rw [enforced_uniform presentAfter positiveSecond (Or.inr high), once.evened_eq level] at again
    rwa [enforced_uniform present positiveMax (Or.inr highMax)]
  · have massiveAfter : (eligibles zeros ys).sum ≠ 0 := once.sum_eq ▸ massive
    have lowMax : ¬ 999 / 1000 < max first second :=
      not_lt.mpr (max_le (not_lt.mp low) (not_lt.mp high))
    have levelAfter := level_pos presentAfter positiveSecond massiveAfter
    rw [enforced_levels presentAfter positiveSecond (not_or.mpr ⟨massiveAfter, high⟩)] at again
    rw [enforced_levels present positiveMax (not_or.mpr ⟨massive, lowMax⟩)]
    have joined := once.trans level levelAfter again
    rw [once.attainable_eq level, once.length_eq] at joined
    have higher : attainable zeros (max first second / xs.length) xs =
        max (attainable zeros (first / xs.length) xs) (attainable zeros (second / xs.length) xs) := by
      rw [← max_div_div_right (Nat.cast_nonneg _), attainable, min_max_distrib_right]
      rfl
    rwa [higher]

end

/-! ### Runs -/

section
variable [Exponential] {b : Buffer Exact} {xs : List ℝ}

theorem perform_enforce (flat : b.rows = none) (writable : b.storage.Writable)
    (keeps : b.storage.KeepsReals) (entries : b.entries = xs.map .finite) (nonempty : xs ≠ [])
    (zeros : Bool) {minimum : ℝ} (least : 0 ≤ minimum) (most : minimum ≤ 1) :
    ∃ ys, b.perform (enforce (.real (.finite minimum)) zeros b) =
      (.ok .success, { b with entries := ys.map .finite }) ∧ Enforced zeros minimum xs ys := by
  obtain ⟨u, ys, planned, fits, applied, enforced⟩ :=
    enforce_finite zeros flat entries nonempty least most
  rw [← List.length_map Exact.finite, ← entries] at fits
  refine ⟨ys, ?_, enforced⟩
  have accepted : (Planned.accept u : Planned Status Exact).update.Fits b.entries.length := fits
  rw [planned, Buffer.perform_exact flat writable keeps accepted, ← applied]
  rfl

theorem step_floor (flat : b.rows = none) (writable : b.storage.Writable)
    (keeps : b.storage.KeepsReals) (entries : b.entries = xs.map .finite) (nonempty : xs ≠ [])
    (zeros : Bool) {minimum : ℝ} (least : 0 ≤ minimum) (most : minimum ≤ 1) :
    ∃ ys, ((Operation.floor (.real (.finite minimum)) zeros).step b).2 =
      { b with entries := ys.map .finite } ∧ Enforced zeros minimum xs ys := by
  obtain ⟨ys, performed, enforced⟩ :=
    perform_enforce flat writable keeps entries nonempty zeros least most
  refine ⟨ys, ?_, enforced⟩
  rw [Operation.step, Operation.plan, Operation.perform_answering, performed]

theorem run_floor_floor (flat : b.rows = none) (keeps : b.storage.KeepsReals)
    (entries : b.entries = xs.map .finite) (nonempty : xs ≠ []) (zeros : Bool) {first second : ℝ}
    (leastFirst : 0 ≤ first) (mostFirst : first ≤ 1) (leastSecond : 0 ≤ second)
    (mostSecond : second ≤ 1) :
    Operation.run b [.floor (.real (.finite first)) zeros, .floor (.real (.finite second)) zeros] =
      Operation.run b [.floor (.real (.finite (max first second))) zeros] := by
  show ((Operation.floor _ zeros).step ((Operation.floor _ zeros).step b).2).2 =
    ((Operation.floor _ zeros).step b).2
  by_cases writable : b.storage.Writable
  · obtain ⟨ys, afterFirst, once⟩ :=
      step_floor flat writable keeps entries nonempty zeros leastFirst mostFirst
    have remaining : ys ≠ [] := by
      rw [← List.length_pos_iff, once.length_eq]
      exact List.length_pos_of_ne_nil nonempty
    rw [afterFirst]
    obtain ⟨zs, afterSecond, again⟩ :=
      step_floor (b := { b with entries := ys.map .finite }) flat writable keeps rfl remaining
        zeros leastSecond mostSecond
    obtain ⟨joined, afterMax, max⟩ :=
      step_floor flat writable keeps entries nonempty zeros
        (leastFirst.trans (le_max_left first second)) (max_le mostFirst mostSecond)
    rw [afterSecond, afterMax]
    have same := (once.trans leastFirst leastSecond again).unique
      (leastFirst.trans (le_max_left _ _)) max
    rw [same]
  · simp only [Operation.step, Buffer.perform_locked writable]

/-- Two floors one after the other leave what the higher one leaves by itself. So a floor enforced
twice is enforced once, and the order of two floors does not matter. -/
theorem floors_join (flat : b.rows = none) (keeps : b.storage.KeepsReals)
    (entries : b.entries = xs.map .finite) (nonempty : xs ≠ []) (zeros : Bool) {first second : ℝ}
    (leastFirst : 0 ≤ first) (mostFirst : first ≤ 1) (leastSecond : 0 ≤ second)
    (mostSecond : second ≤ 1) :
    Operation.run b [.floor (.real (.finite first)) zeros, .floor (.real (.finite second)) zeros] =
      Operation.run b [.floor (.real (.finite (max first second))) zeros] ∧
    Operation.run b [.floor (.real (.finite first)) zeros, .floor (.real (.finite first)) zeros] =
      Operation.run b [.floor (.real (.finite first)) zeros] ∧
    Operation.run b [.floor (.real (.finite first)) zeros, .floor (.real (.finite second)) zeros] =
      Operation.run b
        [.floor (.real (.finite second)) zeros, .floor (.real (.finite first)) zeros] := by
  have join := run_floor_floor flat keeps entries nonempty zeros leastFirst mostFirst leastSecond
    mostSecond
  have self := run_floor_floor flat keeps entries nonempty zeros leastFirst mostFirst leastFirst
    mostFirst
  have swapped := run_floor_floor flat keeps entries nonempty zeros leastSecond mostSecond
    leastFirst mostFirst
  refine ⟨join, ?_, ?_⟩
  · rw [self, max_self]
  · rw [join, swapped, max_comm]

end

theorem floors_join_of_three :
    Operation.run (Buffer.ofList [Exact.finite 2, Exact.finite 0, Exact.finite (-1)])
        [.floor (.real (.finite (3 / 4))) true, .floor (.real (.finite 1)) true] =
      Operation.run (Buffer.ofList [Exact.finite 2, Exact.finite 0, Exact.finite (-1)])
        [.floor (.real (.finite (max (3 / 4) 1))) true] := by
  have entries : (Buffer.ofList [Exact.finite 2, Exact.finite 0, Exact.finite (-1)]).entries =
      [2, 0, -1].map Exact.finite := rfl
  exact (floors_join rfl (by decide) entries (by simp) true (by norm_num) (by norm_num)
    (by norm_num) (by norm_num)).1

end SeededChoice.Floor
