import SeededChoice.Proofs.Floor.Join

/-!
# Filling up to a floor

Under a floor that the eligible mass suffices for, the eligible values are scaled by one factor and
filled up to the floor, and no other way to do so keeps their mass. A mass that does not suffice is
shared out evenly, and so is a mass of one where there is none at all.
-/

namespace SeededChoice.Floor

variable {n : ℕ} {zeros : Bool} {floor : ℝ} {v w u : Fin n → ℝ}

/-- The indexes of the eligible values. -/
noncomputable def eligibleSet (zeros : Bool) (v : Fin n → ℝ) : Finset (Fin n) :=
  {i | eligible zeros (v i) = true}

noncomputable def eligibleMass (zeros : Bool) (v : Fin n → ℝ) : ℝ := ∑ i ∈ eligibleSet zeros v, v i

/-- The eligible values are scaled by one factor and filled up to the floor. Their mass stays what
it was, and so does every other value. -/
structure Fills (zeros : Bool) (floor : ℝ) (v w : Fin n → ℝ) : Prop where
  others : ∀ i ∉ eligibleSet zeros v, w i = v i
  filled : ∃ factor, 0 ≤ factor ∧ factor ≤ 1 ∧
    ∀ i ∈ eligibleSet zeros v, w i = max floor (factor * v i)
  mass : ∑ i ∈ eligibleSet zeros v, w i = eligibleMass zeros v

theorem mem_eligibleSet {i : Fin n} : i ∈ eligibleSet zeros v ↔ eligible zeros (v i) = true := by
  rw [eligibleSet, Finset.mem_filter, and_iff_right (Finset.mem_univ i)]

/-! ### Sums over the eligible values -/

theorem sum_map_eligibles {M : Type} [AddCommMonoid M] (zeros : Bool) (v : Fin n → ℝ) (g : ℝ → M) :
    ((eligibles zeros (List.ofFn v)).map g).sum = ∑ i ∈ eligibleSet zeros v, g (v i) := by
  have split := List.sum_map_ite (fun x => eligible zeros x = true) g (fun _ => 0) (List.ofFn v)
  simp only [List.map_const', List.sum_replicate, smul_zero, add_zero, Bool.decide_eq_true] at split
  rw [eligibles, ← split, List.map_ofFn, List.sum_ofFn, eligibleSet, Finset.sum_filter]
  rfl

theorem sum_eligibles_ofFn (zeros : Bool) (v : Fin n → ℝ) :
    (eligibles zeros (List.ofFn v)).sum = eligibleMass zeros v := by
  rw [eligibleMass, ← sum_map_eligibles zeros v fun x => x, List.map_id']

theorem length_eligibles_ofFn (zeros : Bool) (v : Fin n → ℝ) :
    (eligibles zeros (List.ofFn v)).length = (eligibleSet zeros v).card := by
  have ones := sum_map_eligibles zeros v fun _ => 1
  rwa [List.map_const', List.sum_replicate, smul_eq_mul, mul_one, ← Finset.card_eq_sum_ones] at ones

theorem eligibles_ofFn_ne_nil : eligibles zeros (List.ofFn v) ≠ [] ↔
    (eligibleSet zeros v).Nonempty := by
  rw [← List.length_pos_iff, length_eligibles_ofFn, Finset.card_pos]

theorem sum_eligibles_lift (positive : 0 < floor) (factor : ℝ) :
    (eligibles zeros ((List.ofFn v).map (lift zeros floor factor))).sum =
      ∑ i ∈ eligibleSet zeros v, max floor (factor * v i) := by
  rw [eligibles_lift positive, sum_map_eligibles]
  simp only [mul_comm factor]

/-! ### Filling -/

/-- Bringing values to a level is filling them up to it. -/
theorem levels_ofFn_iff (positive : 0 < floor) :
    Levels zeros floor (List.ofFn v) (List.ofFn w) ↔ Fills zeros floor v w := by
  constructor
  · rintro ⟨factor, least, most, mapped, mass⟩
    rw [mapped, sum_eligibles_lift positive, sum_eligibles_ofFn] at mass
    rw [List.map_ofFn, List.ofFn_inj] at mapped
    have filled : ∀ i ∈ eligibleSet zeros v, w i = max floor (factor * v i) := by
      intro i member
      rw [mapped, Function.comp_apply, lift, if_pos (mem_eligibleSet.mp member), mul_comm]
    refine ⟨?_, ⟨factor, least, most, filled⟩, (Finset.sum_congr rfl filled).trans mass⟩
    intro i excluded
    rw [mapped, Function.comp_apply, lift, if_neg (mem_eligibleSet.not.mp excluded)]
  · rintro ⟨others, ⟨factor, least, most, filled⟩, mass⟩
    have mapped : List.ofFn w = (List.ofFn v).map (lift zeros floor factor) := by
      rw [List.map_ofFn, List.ofFn_inj]
      funext i
      rw [Function.comp_apply, lift]
      split
      · rename_i listed
        rw [filled i (mem_eligibleSet.mpr listed), mul_comm]
      · rename_i excluded
        exact others i (mem_eligibleSet.not.mpr excluded)
    refine ⟨factor, least, most, mapped, ?_⟩
    rw [mapped, sum_eligibles_lift positive, sum_eligibles_ofFn, ← mass]
    exact (Finset.sum_congr rfl filled).symm

theorem Fills.unique (positive : 0 < floor) (first : Fills zeros floor v w)
    (second : Fills zeros floor v u) : w = u := by
  rw [← levels_ofFn_iff positive] at first second
  exact List.ofFn_injective (first.unique positive second)

/-- The same value for each eligible one. -/
theorem ofFn_eq_map_eligible {t : ℝ} (mapped : List.ofFn w =
    (List.ofFn v).map fun x => if eligible zeros x then t else x) :
    (∀ i ∉ eligibleSet zeros v, w i = v i) ∧ ∀ i ∈ eligibleSet zeros v, w i = t := by
  rw [List.map_ofFn, List.ofFn_inj] at mapped
  constructor
  · intro i excluded
    rw [mapped, Function.comp_apply, if_neg (mem_eligibleSet.not.mp excluded)]
  · intro i member
    rw [mapped, Function.comp_apply, if_pos (mem_eligibleSet.mp member)]

/-! ### Enforcing -/

section
variable {minimum : ℝ} (enforced : Enforced zeros minimum (List.ofFn v) (List.ofFn w))
include enforced

theorem Enforced.none_eligible (ineligible : ¬ (eligibleSet zeros v).Nonempty) : w = v := by
  have empty : eligibles zeros (List.ofFn v) = [] :=
    not_not.mp (eligibles_ofFn_ne_nil.not.mpr ineligible)
  exact List.ofFn_injective ((enforced_idle (.inl empty)).mp enforced)

variable (present : (eligibleSet zeros v).Nonempty) (positive : 0 < minimum)
include present positive

theorem Enforced.massless (massless : eligibleMass zeros v = 0) :
    (∀ i ∉ eligibleSet zeros v, w i = v i) ∧
      ∀ i ∈ eligibleSet zeros v, w i = 1 / (eligibleSet zeros v).card := by
  rw [← sum_eligibles_ofFn] at massless
  rw [← length_eligibles_ofFn]
  exact ofFn_eq_map_eligible
    ((enforced_uniform (eligibles_ofFn_ne_nil.mpr present) positive (.inl massless)).mp enforced)

variable (most : minimum ≤ 999 / 1000) (massive : 0 < eligibleMass zeros v)
include most massive

theorem Enforced.levels :
    Levels zeros (attainable zeros (minimum / n) (List.ofFn v)) (List.ofFn v) (List.ofFn w) := by
  rw [← sum_eligibles_ofFn] at massive
  have steady : ¬ ((eligibles zeros (List.ofFn v)).sum = 0 ∨ 999 / 1000 < minimum) :=
    not_or.mpr ⟨massive.ne', not_lt.mpr most⟩
  have levels := (enforced_levels (eligibles_ofFn_ne_nil.mpr present) positive steady).mp enforced
  rwa [List.length_ofFn] at levels

theorem Enforced.short
    (short : eligibleMass zeros v < minimum / n * (eligibleSet zeros v).card) :
    (∀ i ∉ eligibleSet zeros v, w i = v i) ∧ ∀ i ∈ eligibleSet zeros v,
      w i = eligibleMass zeros v / (eligibleSet zeros v).card := by
  have levels := enforced.levels present positive most massive
  rw [← sum_eligibles_ofFn] at massive short ⊢
  rw [← length_eligibles_ofFn] at short ⊢
  rw [← eligibles_ofFn_ne_nil] at present
  have spread := levels_spread massive short.le present
  have level : 0 < attainable zeros (minimum / n) (List.ofFn v) := by
    have mean := div_pos massive (length_eligibles_pos present)
    have floor : 0 < minimum / n := pos_of_mul_pos_left (massive.trans short) (Nat.cast_nonneg _)
    exact lt_min floor mean
  exact ofFn_eq_map_eligible (levels.unique level spread)

theorem Enforced.fills
    (enough : minimum / n * (eligibleSet zeros v).card ≤ eligibleMass zeros v) :
    Fills zeros (minimum / n) v w := by
  have levels := enforced.levels present positive most massive
  rw [← eligibles_ofFn_ne_nil] at present
  have size : n ≠ 0 := by
    rintro rfl
    exact present rfl
  have count : (0 : ℝ) < n := Nat.cast_pos.mpr (Nat.pos_of_ne_zero size)
  rw [← sum_eligibles_ofFn, ← length_eligibles_ofFn] at enough
  have level : attainable zeros (minimum / n) (List.ofFn v) = minimum / n :=
    min_eq_left ((le_div_iff₀ (length_eligibles_pos present)).mpr enough)
  rw [level] at levels
  exact (levels_ofFn_iff (div_pos positive count)).mp levels

end

section
variable {minimum : ℝ} (positive : 0 < minimum) (most : minimum ≤ 999 / 1000)
include positive most

theorem Enforced.others (enforced : Enforced zeros minimum (List.ofFn v) (List.ofFn w)) :
    ∀ i ∉ eligibleSet zeros v, w i = v i := by
  by_cases present : (eligibleSet zeros v).Nonempty
  · have natural : 0 ≤ eligibleMass zeros v := by
      rw [← sum_eligibles_ofFn]
      exact List.sum_nonneg eligibles_nonneg
    rcases natural.eq_or_lt with massless | massive
    · exact (enforced.massless present positive massless.symm).1
    rcases lt_or_ge (eligibleMass zeros v) (minimum / n * (eligibleSet zeros v).card) with
      short | enough
    · exact (enforced.short present positive most massive short).1
    · exact (enforced.fills present positive most massive enough).others
  · rw [enforced.none_eligible present]
    exact fun _ _ => rfl

/-- A floor is always enforced and leaves every value that is not eligible as it is. The eligible
ones are filled up to it in the one way that keeps their mass, where that suffices. Where it does
not, they get equal shares of it, and of one where there is no mass. -/
theorem floor_fills [Exponential] {b : Buffer Exact} (flat : b.rows = none)
    (writable : b.storage.Writable) (keeps : b.storage.KeepsReals) (nonempty : n ≠ 0)
    (entries : b.entries = (List.ofFn v).map .finite) (zeros : Bool) :
    ∃ w : Fin n → ℝ,
      (Operation.floor (.real (.finite minimum)) zeros).step b =
        (.ok (.status .success), { b with entries := (List.ofFn w).map .finite }) ∧
      (∀ i ∉ eligibleSet zeros v, w i = v i) ∧
      ((eligibleSet zeros v).Nonempty →
        (minimum / n * (eligibleSet zeros v).card ≤ eligibleMass zeros v →
          0 < eligibleMass zeros v →
          Fills zeros (minimum / n) v w ∧ ∀ u, Fills zeros (minimum / n) v u → u = w) ∧
        (0 < eligibleMass zeros v →
          eligibleMass zeros v < minimum / n * (eligibleSet zeros v).card →
          ∀ i ∈ eligibleSet zeros v,
            w i = eligibleMass zeros v / (eligibleSet zeros v).card) ∧
        (eligibleMass zeros v = 0 →
          ∀ i ∈ eligibleSet zeros v, w i = 1 / (eligibleSet zeros v).card)) := by
  have listed : List.ofFn v ≠ [] := by
    rw [← List.length_pos_iff, List.length_ofFn]
    exact Nat.pos_of_ne_zero nonempty
  obtain ⟨ys, performed, enforced⟩ := perform_enforce flat writable keeps entries listed zeros
    positive.le (most.trans (by norm_num))
  have length : ys.length = n := enforced.length_eq.trans List.length_ofFn
  obtain ⟨w, rfl⟩ : ∃ w : Fin n → ℝ, List.ofFn w = ys :=
    ⟨fun i => ys[i], by subst length; exact List.ofFn_getElem⟩
  refine ⟨w, ?_, enforced.others positive most, fun present => ⟨?_, ?_, ?_⟩⟩
  · rw [Operation.step, Operation.plan, Operation.perform_answering, performed]
    rfl
  · intro enough massive
    have fills := enforced.fills present positive most massive enough
    have count : (0 : ℝ) < n := Nat.cast_pos.mpr (Nat.pos_of_ne_zero nonempty)
    exact ⟨fills, fun u other => other.unique (div_pos positive count) fills⟩
  · exact fun massive short => (enforced.short present positive most massive short).2
  · exact fun massless => (enforced.massless present positive massless).2

end

theorem floor_fills_of_three :
    (Operation.floor (.real (.finite (1 / 2))) true).step
        (Buffer.ofList [Exact.finite 2, Exact.finite 0, Exact.finite (-1)]) =
      (.ok (.status .success),
        Buffer.ofList [Exact.finite (11 / 6), Exact.finite (1 / 6), Exact.finite (-1)]) := by
  have listed : eligibleSet true ![2, 0, -1] = {0, 1} := by
    ext i
    fin_cases i <;> simp [mem_eligibleSet, eligible]
  have mass : eligibleMass true ![2, 0, -1] = 2 := by
    rw [eligibleMass, listed, Finset.sum_pair (by decide)]
    norm_num
  have fills : Fills true (1 / 2 / (3 : ℕ)) ![2, 0, -1] ![11 / 6, 1 / 6, -1] := by
    refine ⟨?_, ⟨11 / 12, by norm_num, by norm_num, ?_⟩, ?_⟩
    · intro i excluded
      obtain rfl : i = 2 := by
        rw [listed] at excluded
        fin_cases i <;> simp_all
      rfl
    · intro i member
      rw [listed, Finset.mem_insert, Finset.mem_singleton] at member
      rcases member with rfl | rfl <;> norm_num
    · rw [mass, listed, Finset.sum_pair (by decide)]
      norm_num
  have positive : (0 : ℝ) < 1 / 2 := by norm_num
  have most : (1 / 2 : ℝ) ≤ 999 / 1000 := by norm_num
  obtain ⟨w, step, -, filled⟩ := floor_fills (v := ![2, 0, -1]) positive most
    (b := Buffer.ofList [.finite 2, .finite 0, .finite (-1)]) rfl (by decide) (by decide)
    (by decide) (by simp [Buffer.ofList]) true
  have present : (eligibleSet true (![2, 0, -1] : Fin 3 → ℝ)).Nonempty := by
    rw [listed]
    exact ⟨0, by decide⟩
  have enough : 1 / 2 / ((3 : ℕ) : ℝ) * (eligibleSet true (![2, 0, -1] : Fin 3 → ℝ)).card ≤ 2 := by
    rw [listed, Finset.card_pair (by decide)]
    norm_num
  rw [mass] at filled
  have same := ((filled present).1 enough two_pos).2 _ fills
  rw [step, ← same]
  simp [Buffer.ofList]

end SeededChoice.Floor
