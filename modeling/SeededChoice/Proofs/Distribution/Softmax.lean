import SeededChoice.Proofs.Distribution.Weights

/-!
# Softmax distributions

What the exponential generator writes respects the scores, infinities included. Finite scores have
their exponentials as weights, up to a factor that the shares lose.
-/

namespace SeededChoice.Generator

open Exact

variable {n : ℕ} {r : ℝ} {v : Fin n → EReal} {w : Fin n → ℝ} {u : Update Exact}

/-! ### Scores of every kind -/

/-- A distribution over actions that respects what their scores weigh at the rate. -/
structure Respects (r : ℝ) (v : Fin n → EReal) (p : Fin n → ℝ) : Prop where
  natural : ∀ i, 0 ≤ p i
  total : ∑ i, p i = 1
  rising : 0 < r → ∀ i j, v i ≤ v j → p i ≤ p j
  falling : r < 0 → ∀ i j, v i ≤ v j → p j ≤ p i
  equal : ∀ i j, v i = v j → p i = p j
  among : r ≠ 0 → (∃ i, v i = favoured r) → ∀ i,
    p i = if v i = favoured r then 1 / (Finset.card {j | v j = favoured r} : ℝ) else 0
  weightless : r ≠ 0 → (∀ i, v i = disfavoured r) → ∀ i, p i = 1 / n
  excluded : r ≠ 0 → (∀ i, v i ≠ favoured r) → (∃ i, v i ≠ disfavoured r) →
    ∀ i, p i = 0 ↔ v i = disfavoured r
  level : r = 0 → ∀ i, p i = 1 / n

section
variable [Exponential]

theorem Weighs.respects (monotone : Monotone Exponential.exp) (nonempty : n ≠ 0)
    (weighs : Weighs r v u w) : Respects r v (shareOf w) := by
  have massive := weighs.massive nonempty
  have ordered : ∀ i j, Trails r (v i) (v j) → shareOf w i ≤ shareOf w j := fun i j trails =>
    div_le_div_of_nonneg_right (weighs.le_of_trails monotone trails) massive.le
  exact {
    natural := fun i => div_nonneg (weighs.natural i) massive.le
    total := by
      simp only [shareOf]
      rw [← Finset.sum_div, div_self massive.ne']
    rising := fun positive i j less => ordered i j ((if_pos positive).mpr less)
    falling := fun negative i j less => ordered j i ((if_neg negative.not_gt).mpr less)
    equal := fun i j same =>
      le_antisymm (ordered i j (same ▸ .refl r (v i))) (ordered j i (same ▸ .refl r (v i)))
    among := fun nonzero attained i => by
      rw [weighs.eq_indicator nonzero attained]
      simp [shareOf, indicator, ite_div]
    weightless := fun _ all i => by rw [weighs.eq_one (.inr all), shareOf_one]
    excluded := fun nonzero plain spared i => by
      obtain ⟨t, rfl, -⟩ := weighs.eq_weight nonzero plain spared
      rw [shareOf, div_eq_zero_iff, or_iff_left massive.ne']
      exact weight_eq_zero_iff (plain i)
    level := fun zero i => by rw [weighs.eq_one (.inl zero), shareOf_one] }

variable {b : Buffer Exact} {rate scores : Argument Exact} (flat : b.rows = none)
  (writable : b.storage.Writable) (keeps : b.storage.KeepsReals) (nonempty : n ≠ 0)
  (size : b.entries.length = n) (rated : rate.toReal = .ok (finite r))
include flat writable keeps nonempty size rated

/-- Scores that are numbers, finite or not, always get a distribution that respects them. -/
theorem softmax_respects (monotone : Monotone Exponential.exp)
    (read : scores.toWeights = .ok ((List.ofFn v).map ofExtended)) :
    ∃ p : Fin n → ℝ, Respects r v p ∧
      (Operation.softmax rate scores).step b =
        (.ok (.status .success), { b with entries := (List.ofFn p).map finite }) := by
  obtain ⟨u, w, weighs, -, stepped⟩ := step_weighs flat writable keeps nonempty size rated read
  exact ⟨shareOf w, weighs.respects monotone nonempty, stepped⟩

end

theorem softmax_respects_of_three :
    (Operation.softmax (.real (finite 2)) (.list [.real (infinite false), .real (finite 0),
        .real (infinite false)])).step (Buffer.ofList [finite 0, finite 0, finite 0]) =
      (.ok (.status .success), Buffer.ofList [finite (1 / 2), finite 0, finite (1 / 2)]) := by
  have rated : (Argument.real (finite 2)).toReal = .ok (finite 2) := rfl
  have read : (Argument.list [.real (infinite false), .real (finite 0),
      .real (infinite false)]).toWeights = .ok ((List.ofFn ![⊤, 0, ⊤]).map ofExtended) := rfl
  obtain ⟨p, respects, stepped⟩ := softmax_respects
    (b := Buffer.ofList [finite 0, finite 0, finite 0]) rfl (by decide) (by decide) three_ne_zero
    rfl rated Real.exp_monotone read
  have top : favoured 2 = ⊤ := if_pos two_pos
  have listed : (Finset.univ.filter fun j => (![⊤, 0, ⊤] : Fin 3 → EReal) j = ⊤) = {0, 2} := by
    ext i
    fin_cases i <;> simp
  have among := respects.among two_ne_zero ⟨0, top.symm⟩
  rw [top, listed] at among
  have shares : p = ![1 / 2, 0, 1 / 2] := by
    funext i
    rw [among]
    fin_cases i <;> simp
  rw [stepped, shares]
  simp [Buffer.ofList]

/-! ### Finite scores -/

section
variable [Exponential]

/-- The exponential of each score at the rate, over the total of all. -/
noncomputable def exponentialShare (r : ℝ) (s : Fin n → ℝ) (i : Fin n) : ℝ :=
  Exponential.exp (r * s i) / ∑ j, Exponential.exp (r * s j)

theorem exponentialShare_comp (r : ℝ) (s : Fin n → ℝ) (σ : Equiv.Perm (Fin n)) :
    exponentialShare r (s ∘ σ) = exponentialShare r s ∘ σ :=
  shareOf_comp (w := fun i => Exponential.exp (r * s i)) σ

variable {s : Fin n → ℝ} (additive : ∀ x y : ℝ,
  Exponential.exp (x + y) = Exponential.exp x * Exponential.exp y)
include additive

/-- What is added to all scores is a factor of every weight. -/
theorem exponentialShare_add (r c : ℝ) (s : Fin n → ℝ) :
    (exponentialShare r fun i => s i + c) = exponentialShare r s := by
  have scaled : (fun i => Exponential.exp (r * (s i + c))) =
      fun i => Exponential.exp (r * s i) * Exponential.exp (r * c) := by
    funext i
    rw [mul_add, additive]
  show shareOf (fun i => Exponential.exp (r * (s i + c))) = _
  rw [scaled, shareOf_mul (Exponential.exp_pos _).ne']
  rfl

/-- Finite scores are measured from a finite one, and it does not show from which. -/
theorem Weighs.shareOf_finite (nonempty : n ≠ 0) (weighs : Weighs r (fun i => (s i : EReal)) u w) :
    shareOf w = exponentialShare r s ∧
      (r ≠ 0 → u = .assign ((List.ofFn (shareOf w)).map finite)) := by
  by_cases level : r = 0
  · refine ⟨?_, fun nonzero => absurd level nonzero⟩
    rw [weighs.eq_one (.inl level), level]
    funext i
    simp only [shareOf, exponentialShare, zero_mul, Exponential.exp_zero]
  · have spared : ∃ i, (s i : EReal) ≠ disfavoured r :=
      ⟨⟨0, Nat.pos_of_ne_zero nonempty⟩, coe_ne_disfavoured r _⟩
    obtain ⟨t, measured, assigned⟩ :=
      weighs.eq_weight level (fun i => coe_ne_favoured r (s i)) spared
    refine ⟨?_, fun _ => assigned⟩
    have shifted : w = fun i => Exponential.exp (r * (s i + -t)) := measured
    rw [shifted]
    exact exponentialShare_add additive r (-t) s

variable {b : Buffer Exact} {rate scores : Argument Exact} (flat : b.rows = none)
  (writable : b.storage.Writable) (keeps : b.storage.KeepsReals) (nonempty : n ≠ 0)
  (size : b.entries.length = n) (rated : rate.toReal = .ok (finite r))
include flat writable keeps nonempty size rated

theorem step_exponential (read : scores.toWeights = .ok ((List.ofFn s).map finite)) :
    (Operation.softmax rate scores).step b = (.ok (.status .success),
      { b with entries := (List.ofFn (exponentialShare r s)).map finite }) ∧
    (r ≠ 0 → ∃ values, softmax rate scores n = .ok (.accept (.assign values))) := by
  have extended : scores.toWeights =
      .ok ((List.ofFn fun i => (s i : EReal)).map ofExtended) := by
    rw [read, List.map_ofFn, List.map_ofFn]
    rfl
  obtain ⟨u, w, weighs, planned, stepped⟩ :=
    step_weighs flat writable keeps nonempty size rated extended
  obtain ⟨shares, assigned⟩ := weighs.shareOf_finite additive nonempty
  exact ⟨shares ▸ stepped, fun nonzero => ⟨_, assigned nonzero ▸ planned⟩⟩

/-- Finite scores always get the shares of their exponentials, and never an even share for want of
weights. What is added to all scores does not show, and scores in another order get their shares in
that order. -/
theorem softmax_exponential (read : scores.toWeights = .ok ((List.ofFn s).map finite)) :
    (Operation.softmax rate scores).step b = (.ok (.status .success),
      { b with entries := (List.ofFn (exponentialShare r s)).map finite }) ∧
    (r ≠ 0 → ∃ values, softmax rate scores n = .ok (.accept (.assign values))) ∧
    (∀ (c : ℝ) (shifted : Argument Exact),
      shifted.toWeights = .ok ((List.ofFn fun i => s i + c).map finite) →
        (Operation.softmax rate shifted).step b = (Operation.softmax rate scores).step b) ∧
    ∀ (σ : Equiv.Perm (Fin n)) (permuted : Argument Exact),
      permuted.toWeights = .ok ((List.ofFn (s ∘ σ)).map finite) →
        (Operation.softmax rate permuted).step b = (.ok (.status .success),
          { b with entries := (List.ofFn (exponentialShare r s ∘ σ)).map finite }) := by
  have steps {s : Fin n → ℝ} {scores : Argument Exact}
      (read : scores.toWeights = .ok ((List.ofFn s).map finite)) :=
    step_exponential additive flat writable keeps nonempty size rated read
  obtain ⟨stepped, assigned⟩ := steps read
  refine ⟨stepped, assigned, fun c shifted moved => ?_, fun σ permuted moved => ?_⟩
  · rw [(steps moved).1, stepped, exponentialShare_add additive]
  · rw [(steps moved).1, exponentialShare_comp]

end

theorem softmax_exponential_of_two :
    (Operation.softmax (.real (finite (-1))) (.list [.real (finite 0), .real (finite 1)])).step
        (Buffer.ofList [finite 0, finite 0]) =
      (.ok (.status .success), Buffer.ofList [finite (1 / (1 + Real.exp (-1))),
        finite (Real.exp (-1) / (1 + Real.exp (-1)))]) := by
  have shares : exponentialShare (-1) ![0, 1] =
      ![1 / (1 + Real.exp (-1)), Real.exp (-1) / (1 + Real.exp (-1))] := by
    funext i
    have exp : (Exponential.exp : ℝ → ℝ) = Real.exp := rfl
    fin_cases i <;> simp [exponentialShare, exp]
  have rated : (Argument.real (finite (-1))).toReal = .ok (finite (-1)) := rfl
  have read : (Argument.list [.real (finite 0), .real (finite 1)]).toWeights =
      .ok ((List.ofFn ![0, 1]).map finite) := rfl
  obtain ⟨stepped, -⟩ := softmax_exponential (b := Buffer.ofList [finite 0, finite 0])
    Real.exp_add rfl (by decide) (by decide) two_ne_zero rfl rated read
  rw [stepped, shares]
  simp [Buffer.ofList]

end SeededChoice.Generator
