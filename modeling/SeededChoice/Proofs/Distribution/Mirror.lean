import SeededChoice.Operation
import SeededChoice.Proofs.Double.Mirrored
import SeededChoice.Proofs.Exact.Mirrored
import SeededChoice.Proofs.Exact.Order

/-!
# The mirror of a softmax

A softmax with its rate and all its scores negated is the same: what was largest is smallest, and
each weight is the exponential of the same product.
-/

namespace SeededChoice

open MirroredScalar

/-! ### Negated arguments -/

namespace Argument

variable {α : Type} [Scalar α]

mutual

/-- Every number in the argument negated. -/
def negated : Argument α → Argument α
  | absent => absent
  | integer n => integer (-n)
  | real x => real (-x)
  | list items => list (negatedAll items)

def negatedAll : List (Argument α) → List (Argument α)
  | [] => []
  | a :: rest => negated a :: negatedAll rest

end

theorem length_negatedAll (items : List (Argument α)) :
    (negatedAll items).length = items.length := by
  induction items with
  | nil => rfl
  | cons a rest ih => rw [negatedAll, List.length_cons, ih, List.length_cons]

mutual

theorem shape?_negated (a : Argument α) : a.negated.shape? = a.shape? := by
  cases a with
  | absent | integer n | real x => rfl
  | list items => rw [negated, shape?, shape?, shapes?_negatedAll items, length_negatedAll]

theorem shapes?_negatedAll (items : List (Argument α)) :
    shapes? (negatedAll items) = shapes? items := by
  cases items with
  | nil => rfl
  | cons a rest => rw [negatedAll, shapes?, shapes?, shape?_negated a, shapes?_negatedAll rest]

end

mutual

theorem leaves_negated (a : Argument α) : a.negated.leaves = a.leaves.map negated := by
  cases a with
  | absent | integer n | real x => rfl
  | list items => rw [negated, leaves, leaves, leavesOfAll_negatedAll items]

theorem leavesOfAll_negatedAll (items : List (Argument α)) :
    leavesOfAll (negatedAll items) = (leavesOfAll items).map negated := by
  cases items with
  | nil => rfl
  | cons a rest =>
    rw [negatedAll, leavesOfAll, leavesOfAll, leaves_negated a, leavesOfAll_negatedAll rest,
      List.map_append]

end

end Argument

/-! ### Readings -/

/-- Two computations that fail alike, or give related results. -/
inductive Paired {ε α β : Type} (R : α → β → Prop) : Except ε α → Except ε β → Prop where
  | error (e : ε) : Paired R (.error e) (.error e)
  | ok {a : α} {b : β} (related : R a b) : Paired R (.ok a) (.ok b)

namespace Paired

variable {ε α β γ δ : Type} {R : α → β → Prop} {S : γ → δ → Prop} {x : Except ε α} {y : Except ε β}

theorem bind {f : α → Except ε γ} {g : β → Except ε δ} (paired : Paired R x y)
    (each : ∀ a b, R a b → Paired S (f a) (g b)) : Paired S (x >>= f) (y >>= g) := by
  cases paired with
  | error e => exact .error e
  | ok related => exact each _ _ related

theorem eq {x y : Except ε α} (paired : Paired Eq x y) : x = y := by
  cases paired with
  | error e => rfl
  | ok related => exact congrArg Except.ok related

theorem mapM_map {f : γ → Except ε α} {g : γ → Except ε β} {h : γ → γ}
    (each : ∀ c, Paired R (f c) (g (h c))) (cs : List γ) :
    Paired (List.Forall₂ R) (cs.mapM f) ((cs.map h).mapM g) := by
  induction cs with
  | nil => exact .ok .nil
  | cons c rest ih =>
    rw [List.map_cons, List.mapM_cons, List.mapM_cons]
    exact (each c).bind fun _ _ first => ih.bind fun _ _ others => .ok (.cons first others)

end Paired

section
variable {α : Type} [Scalar α] [MirroredScalar α]

namespace Argument

theorem ofInteger_paired (n : Int) :
    Paired Opposed (ofInteger n : Except Error α) (ofInteger (-n)) := by
  have opposed := opposed_ofInt (α := α) n
  unfold ofInteger
  generalize Scalar.ofInt? (α := α) n = x at opposed ⊢
  generalize Scalar.ofInt? (α := α) (-n) = u at opposed ⊢
  cases opposed with
  | none => exact .error Error.tooLarge
  | some opposed => exact .ok opposed

theorem toReal_paired (a : Argument α) : Paired Opposed a.toReal a.negated.toReal := by
  cases a with
  | absent | list items => exact .error Error.wrongKind
  | integer n => exact ofInteger_paired n
  | real x => exact .ok (opposed_neg x)

theorem toWeight_paired (a : Argument α) : Paired Opposed a.toWeight a.negated.toWeight := by
  cases a with
  | absent => exact .ok opposed_nan
  | integer n => exact ofInteger_paired n
  | real x => exact .ok (opposed_neg x)
  | list items => exact .error Error.wrongKind

theorem toWeights_paired (a : Argument α) :
    Paired (List.Forall₂ Opposed) a.toWeights a.negated.toWeights := by
  unfold toWeights toLeaves
  rw [shape?_negated, leaves_negated]
  split
  · exact Paired.mapM_map toWeight_paired a.leaves
  · exact .error Error.ragged

end Argument

/-! ### Weights -/

namespace Generator

variable {rate other : α} {scores others : List α}

theorem map_eq_of_forall₂ {β : Type} {f g : α → β} (related : List.Forall₂ Opposed scores others)
    (same : ∀ x u, Opposed x u → f x = g u) : scores.map f = others.map g := by
  induction related with
  | nil => rfl
  | cons first _ ih => rw [List.map_cons, List.map_cons, same _ _ first, ih]

section
variable (unsigned : Scalar.exp (-0 : α) = Scalar.exp 0) (rates : Opposed rate other)
  (turned : 0 < other ↔ ¬ 0 < rate)
include turned

theorem isDominant_opposed {x u : α} (opposed : Opposed x u) :
    isDominant rate x = isDominant other u := by
  unfold isDominant
  by_cases rising : 0 < rate
  · rw [if_pos rising, if_neg fun positive => turned.mp positive rising]
    exact Scalar.isPositiveInfinity_opposed opposed
  · rw [if_neg rising, if_pos (turned.mpr rising)]
    exact Scalar.isNegativeInfinity_opposed opposed

theorem referenceScore_opposed {first last : α} (firsts : Opposed first last)
    (rests : List.Forall₂ Opposed scores others) :
    Opposed (referenceScore rate first scores) (referenceScore other last others) := by
  unfold referenceScore
  by_cases rising : 0 < rate
  · rw [if_pos rising, if_neg fun positive => turned.mp positive rising]
    exact Scalar.largest_opposed firsts rests
  · rw [if_neg rising, if_pos (turned.mpr rising)]
    exact Scalar.smallest_opposed firsts rests

include unsigned rates

theorem softmaxUpdate_opposed (related : List.Forall₂ Opposed scores others) (n : Nat) :
    softmaxUpdate rate scores n = softmaxUpdate other others n := by
  have marks : scores.map (isDominant rate) = others.map (isDominant other) :=
    map_eq_of_forall₂ related fun _ _ => isDominant_opposed turned
  cases related with
  | nil => rfl
  | @cons first last scores others firsts rests =>
    have references := referenceScore_opposed turned firsts rests
    have weights : (first :: scores).map (softWeight rate (referenceScore rate first scores)) =
        (last :: others).map (softWeight other (referenceScore other last others)) :=
      map_eq_of_forall₂ (.cons firsts rests) fun _ _ opposed =>
        Scalar.exp_mul_opposed unsigned rates (opposed_sub opposed references)
    rw [softmaxUpdate, softmaxUpdate, marks, weights]

end

theorem softmax_negated [ComparableScalar α] [DefiniteScalar α]
    (unsigned : Scalar.exp (-0 : α) = Scalar.exp 0) (rate scores : Argument α) (n : Nat) :
    softmax rate.negated scores.negated n = softmax rate scores n := by
  refine (Paired.eq ?_).symm
  unfold softmax
  refine (Argument.toWeights_paired scores).bind fun xs us related => ?_
  have empty : xs.isEmpty = us.isEmpty := by
    cases related <;> rfl
  have defined : xs.any Scalar.isNaN = us.any Scalar.isNaN := by
    have marks := congrArg (List.any · id) (map_eq_of_forall₂ related fun _ _ => isNaN_eq)
    simpa only [List.any_map, Function.id_comp] using marks
  rw [empty, related.length_eq]
  split
  · exact .ok rfl
  split
  · exact .ok rfl
  refine (Argument.toReal_paired rate).bind fun x u opposed => ?_
  rw [← defined, ← isFinite_eq opposed, ← beq_zero_eq opposed]
  split
  · exact .ok rfl
  rename_i valid
  split
  · exact .ok rfl
  rename_i nonzero
  simp only [Bool.or_eq_true, Bool.not_eq_true', not_or, Bool.not_eq_false] at valid
  have turned := Scalar.pos_opposed_iff opposed valid.1 (Bool.eq_false_iff.mpr nonzero)
  rw [softmaxUpdate_opposed unsigned opposed turned related]
  exact .ok rfl

end Generator

theorem Operation.step_softmax_negated [ComparableScalar α] [DefiniteScalar α]
    (unsigned : Scalar.exp (-0 : α) = Scalar.exp 0) (rate scores : Argument α) (b : Buffer α) :
    (Operation.softmax rate.negated scores.negated).step b =
      (Operation.softmax rate scores).step b := by
  rw [step, step, plan, plan, Generator.softmax_negated unsigned]

end

/-- Negating the rate and the scores changes neither the answer nor the buffer, in doubles as in
exact numbers. In doubles a product that is zero changes its sign, so the exponential may not tell
one zero from the other. -/
theorem Operation.softmax_mirrored [Exponential] [DoubleExponential] :
    (DoubleExponential.exp (-0.0) = DoubleExponential.exp 0.0 →
      ∀ (rate scores : Argument Float) (b : Buffer Float),
        (Operation.softmax rate.negated scores.negated).step b =
          (Operation.softmax rate scores).step b) ∧
    ∀ (rate scores : Argument Exact) (b : Buffer Exact),
      (Operation.softmax rate.negated scores.negated).step b =
        (Operation.softmax rate scores).step b := by
  have unsignedExact : Scalar.exp (-0 : Exact) = Scalar.exp 0 :=
    congrArg (fun x => Scalar.exp (Exact.finite x)) neg_zero
  exact ⟨fun unsigned => step_softmax_negated unsigned, step_softmax_negated unsignedExact⟩

/-- The exponential as doubles have it at zero, and so far below zero that it vanishes. -/
def Double.steep (x : Float) : Float := if x < -746.0 then 0.0 else 1.0

theorem Operation.softmax_mirrored_of_three :
    letI : DoubleExponential := ⟨Double.steep⟩
    DoubleExponential.exp (-0.0) = DoubleExponential.exp 0.0 ∧
    (Operation.softmax (.real 3.0) (.list [.real 2.0, .real 2.0, .real (-1000.0)])).step
      (.ofList [0.0, 0.0, 0.0]) = (.ok (.status .success), .ofList [0.5, 0.5, 0.0]) ∧
    (Operation.softmax (.real (-3.0)) (.list [.real (-2.0), .real (-2.0), .real 1000.0])).step
      (.ofList [0.0, 0.0, 0.0]) = (.ok (.status .success), .ofList [0.5, 0.5, 0.0]) := by
  let _ : DoubleExponential := ⟨Double.steep⟩
  have unsigned : DoubleExponential.exp (-0.0) = DoubleExponential.exp 0.0 := by decide +kernel
  have shared : (Operation.softmax (.real 3.0) (.list [.real 2.0, .real 2.0, .real (-1000.0)])).step
      (.ofList [0.0, 0.0, 0.0] : Buffer Float) =
        (.ok (.status .success), .ofList [0.5, 0.5, 0.0]) := by decide +kernel
  have back : -(-1000.0 : Float) = 1000.0 := by decide +kernel
  have negated : (.list [.real 2.0, .real 2.0, .real (-1000.0)] : Argument Float).negated =
      .list [.real (-2.0), .real (-2.0), .real 1000.0] := by
    simp only [Argument.negated, Argument.negatedAll, back]
  obtain ⟨mirrored, -⟩ := softmax_mirrored
  refine ⟨unsigned, shared, ?_⟩
  rw [← negated, ← shared]
  exact mirrored unsigned (.real 3.0) _ _

end SeededChoice
