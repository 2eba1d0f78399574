import SeededChoice.Generator
import SeededChoice.Proofs.Distribution.Basic
import SeededChoice.Proofs.Exact.Sum
import SeededChoice.Proofs.Outcome

/-!
# Generated distributions

Each generator refuses without a write, or writes a distribution: also where an infinite score or a
weight that cannot be normalized takes another way to it.
-/

namespace SeededChoice.Generator

theorem sum_modify_add {xs : List ℝ} {top : Nat} (inside : top < xs.length) (extra : ℝ) :
    (xs.modify top (· + extra)).sum = xs.sum + extra := by
  induction xs generalizing top with
  | nil => exact absurd inside (Nat.not_lt_zero top)
  | cons x rest ih =>
    cases top with
    | zero =>
      rw [List.modify_zero_cons, List.sum_cons, List.sum_cons]
      ring
    | succ top =>
      rw [List.modify_succ_cons, List.sum_cons, ih (Nat.lt_of_succ_lt_succ inside), List.sum_cons,
        add_assoc]

theorem resolveTop_lt {top : Int} {clamp : Bool} {n i : Nat} (nonzero : n ≠ 0)
    (resolved : resolveTop top clamp n = some i) : i < n := by
  unfold resolveTop at resolved
  split at resolved
  · cases resolved
  split at resolved
  · obtain rfl := Option.some.inj resolved
    omega
  split at resolved
  · obtain rfl := Option.some.inj resolved
    omega
  · cases resolved

theorem sum_first (i n : Nat) :
    ((List.range n).map fun j => if i = j then 1 else 0).sum = if i < n then 1 else 0 := by
  induction n with
  | zero => rfl
  | succ n ih =>
    rw [List.range_succ, List.map_append, List.sum_append, ih, List.map_singleton,
      List.sum_singleton]
    split
    · split
      · omega
      · rw [if_pos (by omega)]
    · split
      · rw [if_pos (by omega)]
      · rw [if_neg (by omega)]

/-- Votes that are all among the actions are all tallied. -/
theorem sum_tally {votes : List Int} {n : Nat} (inside : ∀ v ∈ votes, 0 ≤ v ∧ v < n) :
    (tally votes n).sum = votes.length := by
  induction votes with
  | nil => simp [tally]
  | cons v rest ih =>
    obtain ⟨⟨natural, less⟩, others⟩ := List.forall_mem_cons.mp inside
    obtain ⟨i, rfl⟩ := Int.eq_ofNat_of_zero_le natural
    have counted : tally (Int.ofNat i :: rest) n =
        (List.range n).map fun j => rest.count (Int.ofNat j) + if i = j then 1 else 0 := by
      apply List.map_congr_left
      intro j _
      rw [List.count_cons]
      simp
    have below : i < n := by omega
    rw [show ((i : Int) :: rest) = Int.ofNat i :: rest from rfl, counted, List.sum_map_add,
      sum_first, if_pos below, List.length_cons, ← ih others, tally]

/-- One for each marked action, and zero for the others. -/
noncomputable def indicator (m : Bool) : ℝ := if m then 1 else 0

theorem indicator_nonneg (m : Bool) : 0 ≤ indicator m := by
  unfold indicator
  split
  · exact zero_le_one
  · exact le_refl 0

theorem sum_indicators (marked : List Bool) : (marked.map indicator).sum = marked.countP id := by
  induction marked with
  | nil => simp
  | cons m rest ih =>
    rw [List.map_cons, List.sum_cons, ih, List.countP_cons]
    cases m with
    | false => simp [indicator]
    | true => simp [indicator, add_comm]

variable [Exponential]

/-- Finite values that are not negative, over their sum. -/
theorem distributes_scaled {xs : List ℝ} (natural : ∀ x ∈ xs, 0 ≤ x) (nonzero : xs.sum ≠ 0) :
    (Update.assign ((xs.map Exact.finite).map (· / Exact.finite xs.sum))).Distributes xs.length := by
  exact ⟨xs.map (· / xs.sum), Exact.map_div_finite xs nonzero, isDistribution_scaled natural nonzero,
    List.length_map _⟩

theorem distributes_uniform {n : Nat} (nonzero : n ≠ 0) :
    (Update.fill (.real (uniformShare n : Exact))).Distributes n := by
  refine ⟨nonzero, ?_⟩
  rw [uniformShare, Exact.one_eq, Exact.ofNat_eq, Exact.finite_div _ (Nat.cast_ne_zero.mpr nonzero)]

/-! ### Epsilon-greedy -/

theorem modify_finite (xs : List ℝ) (top : Nat) (extra : ℝ) :
    (xs.map Exact.finite).modify top (· + Exact.finite extra) =
      (xs.modify top (· + extra)).map Exact.finite := by
  apply List.ext_getElem
  · simp
  · intro i _ _
    rw [List.getElem_modify, List.getElem_map, List.getElem_map, List.getElem_modify]
    split
    · rfl
    · rfl

theorem greedyValues_distributes {epsilon : ℝ} {top n : Nat} (least : 0 ≤ epsilon)
    (most : epsilon ≤ 1) (inside : top < n) :
    (Update.assign (greedyValues (Exact.finite epsilon) top n)).Distributes n := by
  have nonzero : (n : ℝ) ≠ 0 := Nat.cast_ne_zero.mpr (Nat.ne_zero_of_lt inside)
  have listed : top < (List.replicate n (epsilon / n)).length := by rwa [List.length_replicate]
  refine ⟨(List.replicate n (epsilon / n)).modify top (· + (1 - epsilon)), ?_, ⟨?_, ?_⟩, ?_⟩
  · rw [greedyValues, Exact.ofNat_eq, Exact.finite_div _ nonzero, Exact.one_eq, Exact.finite_sub,
      ← List.map_replicate, modify_finite]
  · intro x member
    obtain ⟨j, _, rfl⟩ := List.getElem_of_mem member
    have share : 0 ≤ epsilon / n := div_nonneg least (Nat.cast_nonneg n)
    rw [List.getElem_modify, List.getElem_replicate]
    split
    · exact add_nonneg share (sub_nonneg.mpr most)
    · exact share
  · rw [sum_modify_add listed, List.sum_replicate, nsmul_eq_mul, mul_div_cancel₀ _ nonzero,
      add_sub_cancel]
  · rw [List.length_modify, List.length_replicate]

theorem greedy_generates {epsilon top : Argument Exact} {clamp : Bool} {n : Nat}
    {p : Planned Status Exact} (planned : greedy epsilon top clamp n = .ok p) :
    p.Generates n := by
  unfold greedy at planned
  obtain ⟨epsilon, -, planned⟩ := bind_ok planned
  split at planned
  · exact generates_refuse (by decide) planned
  rename_i inside
  obtain ⟨top, -, planned⟩ := bind_ok planned
  split at planned
  · exact generates_refuse (by decide) planned
  rename_i i resolved
  simp only [Bool.or_eq_true, decide_eq_true_iff, Bool.not_eq_true', not_or,
    Bool.not_eq_false] at inside
  obtain ⟨nonzero, unit⟩ := inside
  obtain ⟨e, rfl, least, most⟩ := (Exact.inUnitInterval_iff _).mp unit
  exact generates_accept (greedyValues_distributes least most (resolveTop_lt nonzero resolved))
    planned

/-! ### Softmax -/

theorem exp_nonneg {v : Exact} {x : ℝ} (value : Scalar.exp v = .finite x) : 0 ≤ x := by
  cases v with
  | nan => cases value
  | infinite negative =>
    cases negative with
    | false => cases value
    | true => exact le_of_eq (Exact.finite.inj value)
  | finite y => exact (Exact.finite.inj value) ▸ le_of_lt (Exponential.exp_pos y)

theorem shareAmong_finite (marked : List Bool) : (shareAmong marked : List Exact) =
    ((marked.map indicator).map Exact.finite).map (· / Exact.finite (marked.map indicator).sum) := by
  rw [sum_indicators, List.map_map, List.map_map]
  apply List.map_congr_left
  intro m _
  cases m with
  | false => rfl
  | true => rfl

theorem shareAmong_distributes {marked : List Bool} (marks : marked.any id = true) :
    (Update.assign (shareAmong marked : List Exact)).Distributes marked.length := by
  have natural : ∀ x ∈ marked.map indicator, 0 ≤ x := by
    intro x member
    obtain ⟨m, -, rfl⟩ := List.mem_map.mp member
    exact indicator_nonneg m
  have nonzero : (marked.map indicator).sum ≠ 0 := by
    obtain ⟨m, member, set⟩ := List.any_eq_true.mp marks
    rw [sum_indicators, Nat.cast_ne_zero]
    exact (List.countP_pos_iff.mpr ⟨m, member, set⟩).ne'
  have distributes := distributes_scaled natural nonzero
  rwa [← shareAmong_finite, List.length_map] at distributes

theorem softmaxUpdate_distributes {rate : Exact} {scores : List Exact} (nonempty : scores ≠ []) :
    (softmaxUpdate rate scores scores.length).Distributes scores.length := by
  have nonzero : scores.length ≠ 0 := (List.length_pos_of_ne_nil nonempty).ne'
  cases scores with
  | nil => exact absurd rfl nonempty
  | cons first rest =>
    unfold softmaxUpdate
    dsimp only
    split
    · rename_i dominant
      have shared := shareAmong_distributes dominant
      rwa [List.length_map] at shared
    split
    · exact distributes_uniform nonzero
    rename_i normal
    simp only [Bool.or_eq_true, Bool.not_eq_true', decide_eq_true_iff, not_or,
      Bool.not_eq_false] at normal
    obtain ⟨⟨-, positive⟩, finite⟩ := normal
    obtain ⟨xs, weights⟩ := (Exact.all_isFinite_iff _).mp finite
    have size : xs.length = (first :: rest).length := by
      rw [← List.length_map Exact.finite, ← weights, List.length_map]
    -- A weight is an exponential, so that a finite one is not negative, whatever its exponent.
    have natural : ∀ x ∈ xs, 0 ≤ x := by
      intro x member
      have listed : Exact.finite x ∈ xs.map Exact.finite := List.mem_map_of_mem member
      rw [← weights] at listed
      obtain ⟨score, -, value⟩ := List.mem_map.mp listed
      exact exp_nonneg value
    rw [weights, Exact.sum_finite, Exact.zero_eq, Exact.finite_le, not_le] at positive
    rw [weights, Exact.sum_finite, ← size]
    exact distributes_scaled natural (ne_of_gt positive)

theorem softmax_generates {rate scores : Argument Exact} {n : Nat} {p : Planned Status Exact}
    (planned : softmax rate scores n = .ok p) : p.Generates n := by
  unfold softmax at planned
  obtain ⟨scores, -, planned⟩ := bind_ok planned
  split at planned
  · exact generates_refuse (by decide) planned
  rename_i filled
  split at planned
  · exact generates_refuse (by decide) planned
  rename_i size
  obtain ⟨rate, -, planned⟩ := bind_ok planned
  simp only [Bool.or_eq_true, List.isEmpty_iff, decide_eq_true_iff, not_or] at filled
  obtain ⟨nonempty, nonzero⟩ := filled
  obtain rfl := not_not.mp size
  split at planned
  · exact generates_refuse (by decide) planned
  split at planned
  · exact generates_accept (distributes_uniform nonzero) planned
  · exact generates_accept (softmaxUpdate_distributes nonempty) planned

/-! ### Votes -/

/-- The part of the votes that are for an action. -/
noncomputable def voteShare (votes : List Int) (i : Nat) : ℝ := votes.count (i : Int) / votes.length

theorem voteShares_eq {votes : List Int} (nonempty : votes ≠ []) (n : Nat) :
    ((tally votes n).map fun count => (Scalar.ofNat count / Scalar.ofNat votes.length : Exact)) =
      ((List.range n).map (voteShare votes)).map .finite := by
  have total : (votes.length : ℝ) ≠ 0 :=
    Nat.cast_ne_zero.mpr (List.length_pos_of_ne_nil nonempty).ne'
  rw [tally, List.map_map, List.map_map]
  apply List.map_congr_left
  intro i _
  exact Exact.finite_div _ total

omit [Exponential] in
theorem isDistribution_voteShares {votes : List Int} {n : Nat} (nonempty : votes ≠ [])
    (inside : ∀ v ∈ votes, 0 ≤ v ∧ v < n) :
    IsDistribution ((List.range n).map (voteShare votes)) := by
  have shares : (List.range n).map (voteShare votes) =
      ((tally votes n).map (Nat.cast : Nat → ℝ)).map (· / (votes.length : ℝ)) := by
    rw [tally, List.map_map, List.map_map]
    rfl
  have total : ((tally votes n).map (Nat.cast : Nat → ℝ)).sum = votes.length := by
    rw [← sum_tally inside, Nat.cast_list_sum]
  rw [shares, ← total]
  apply isDistribution_scaled
  · intro x listed
    obtain ⟨count, -, rfl⟩ := List.mem_map.mp listed
    exact Nat.cast_nonneg count
  · rw [total, Nat.cast_ne_zero]
    exact (List.length_pos_of_ne_nil nonempty).ne'

theorem tally_distributes {votes : List Int} {n : Nat} (nonempty : votes ≠ [])
    (inside : ∀ v ∈ votes, 0 ≤ v ∧ v < n) :
    (Update.assign ((tally votes n).map fun count =>
      (Scalar.ofNat count / Scalar.ofNat votes.length : Exact))).Distributes n := by
  refine ⟨(List.range n).map (voteShare votes), voteShares_eq nonempty n,
    isDistribution_voteShares nonempty inside, ?_⟩
  rw [List.length_map, List.length_range]

theorem bag_generates {votes : Argument Exact} {n : Nat} {p : Planned Status Exact}
    (planned : bag votes n = .ok p) : p.Generates n := by
  unfold bag at planned
  obtain ⟨votes, -, planned⟩ := bind_ok planned
  split at planned
  · exact generates_refuse (by decide) planned
  rename_i filled
  split at planned
  · exact generates_refuse (by decide) planned
  rename_i natural
  split at planned
  · exact generates_refuse (by decide) planned
  rename_i below
  simp only [Bool.or_eq_true, List.isEmpty_iff, decide_eq_true_iff, not_or] at filled
  refine generates_accept (tally_distributes filled.1 ?_) planned
  intro v member
  have least := List.any_eq_false.mp (Bool.not_eq_true _ ▸ natural) v member
  have most := List.any_eq_false.mp (Bool.not_eq_true _ ▸ below) v member
  simp only [decide_eq_true_iff, not_lt, not_le] at least most
  exact ⟨least, most⟩

theorem bagOfCounts_generates {counts : Argument Exact} {n : Nat} {p : Planned Status Exact}
    (planned : bagOfCounts counts n = .ok p) : p.Generates n := by
  unfold bagOfCounts at planned
  obtain ⟨counts, -, planned⟩ := bind_ok planned
  split at planned
  · exact generates_refuse (by decide) planned
  rename_i filled
  split at planned
  · exact generates_refuse (by decide) planned
  rename_i size
  split at planned
  · exact generates_refuse (by decide) planned
  rename_i valid
  simp only [Bool.or_eq_true, List.isEmpty_iff, decide_eq_true_iff, not_or] at filled
  obtain ⟨-, nonzero⟩ := filled
  obtain rfl := not_not.mp size
  simp only [Bool.or_eq_true, Bool.not_eq_true', not_or, Bool.not_eq_false] at valid
  obtain ⟨finite, natural⟩ := valid
  obtain ⟨xs, rfl⟩ := (Exact.all_isFinite_iff _).mp finite
  have natural : ∀ x ∈ xs, 0 ≤ x := by
    intro x member
    have least := List.any_eq_false.mp (Bool.not_eq_true _ ▸ natural) _ (List.mem_map_of_mem member)
    rw [decide_eq_true_iff, Exact.zero_eq, Exact.finite_lt, not_lt] at least
    exact least
  dsimp only at planned
  split at planned
  · exact generates_accept (distributes_uniform nonzero) planned
  rename_i positive
  rw [Exact.sum_finite, Exact.zero_eq, Exact.finite_beq, decide_eq_true_iff] at positive
  rw [Exact.sum_finite] at planned
  rw [List.length_map]
  exact generates_accept (distributes_scaled natural positive) planned

end SeededChoice.Generator
