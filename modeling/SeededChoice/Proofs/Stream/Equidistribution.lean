import Mathlib.Data.FinEnum
import Mathlib.Data.Set.Card
import Mathlib.SetTheory.Cardinal.Finite
import SeededChoice.Proofs.Stream.Jump

/-!
# Equidistribution of the draws

The step permutes the words, and each draw stands for equally many words. So at every position of
the stream, each draw comes from exactly `2 ^ 41` of the `2 ^ 64` integer seeds.
-/

namespace SeededChoice

open Function

/-- The number of integer seeds with a property. -/
noncomputable def Seed.countIntegers (p : Seed → Prop) : Nat :=
  Set.ncard {s : ℤ | 0 ≤ s ∧ s < 2 ^ 64 ∧ p (.integer s)}

/-- Integer seeds are words. -/
theorem Seed.countIntegers_eq (p : Seed → Prop) :
    Seed.countIntegers p = Set.ncard {w : UInt64 | p (.ofWord w)} := by
  have injective : Injective fun w : UInt64 => (w.toNat : ℤ) := by
    intro v w same
    exact UInt64.toNat_inj.mp (Int.ofNat.inj same)
  rw [countIntegers, ← Set.ncard_image_of_injective _ injective]
  congr 1
  ext s
  constructor
  · rintro ⟨natural, small, holds⟩
    obtain ⟨n, rfl⟩ := Int.eq_ofNat_of_zero_le natural
    have same : (UInt64.ofNat n).toNat = n :=
      UInt64.toNat_ofNat_of_lt' (Int.ofNat_lt.mp small)
    refine ⟨UInt64.ofNat n, ?_, by simp only [same]⟩
    simpa only [Set.mem_ofPred_eq, Seed.ofWord, same] using holds
  · rintro ⟨w, holds, rfl⟩
    exact ⟨Int.natCast_nonneg _, Int.ofNat_lt.mpr w.toNat_lt, holds⟩

namespace Stream

open scoped UInt64.CommRing

/-- The factor of the step is odd, so it has an inverse among the words. -/
theorem step_injective : Injective step.apply := by
  have unit : (0xBE62A9905BCB1365 : UInt64) * step.factor = 1 := by decide
  intro x y same
  have scaled : step.factor * x = step.factor * y := add_right_cancel same
  calc
    x = 0xBE62A9905BCB1365 * (step.factor * x) := by rw [← mul_assoc, unit, one_mul]
    _ = 0xBE62A9905BCB1365 * (step.factor * y) := by rw [scaled]
    _ = y := by rw [← mul_assoc, unit, one_mul]

theorem iterate_step_bijective (n : Nat) : Bijective step.apply^[n] :=
  Finite.injective_iff_bijective.mp (step_injective.iterate n)

/-- The word with a draw in its window and given bits above and below. -/
def around (draw : Nat) (rest : Fin (2 ^ 16) × Fin (2 ^ 25)) : UInt64 :=
  UInt64.ofNat (rest.1 * 2 ^ 48 + draw * 2 ^ 25 + rest.2)

theorem toNat_around {draw : Nat} (small : draw < 2 ^ 23) (rest : Fin (2 ^ 16) × Fin (2 ^ 25)) :
    (around draw rest).toNat = rest.1 * 2 ^ 48 + draw * 2 ^ 25 + rest.2 := by
  have high := rest.1.isLt
  have low := rest.2.isLt
  exact UInt64.toNat_ofNat_of_lt' (show _ < 2 ^ 64 by omega)

theorem around_injective {draw : Nat} (small : draw < 2 ^ 23) : Injective (around draw) := by
  intro r s same
  have same := congrArg UInt64.toNat same
  rw [toNat_around small, toNat_around small] at same
  have lows := And.intro r.2.isLt s.2.isLt
  have highs : r.1.val = s.1.val := by omega
  exact Prod.ext (Fin.ext highs) (Fin.ext (by omega))

theorem drawOf_eq_iff {draw : Nat} (small : draw < 2 ^ 23) (w : UInt64) :
    drawOf w = draw ↔ ∃ rest, around draw rest = w := by
  rw [drawOf_eq]
  constructor
  · intro same
    have bound := w.toNat_lt
    refine ⟨(⟨w.toNat / 2 ^ 48, by omega⟩, ⟨w.toNat % 2 ^ 25, by omega⟩), ?_⟩
    apply UInt64.toNat_inj.mp
    rw [toNat_around small]
    simp only
    omega
  · rintro ⟨rest, rfl⟩
    have low := rest.2.isLt
    rw [toNat_around small]
    omega

/-- Each draw stands for `2 ^ 41` words. -/
theorem card_drawOf {draw : Nat} (small : draw < 2 ^ 23) :
    {w : UInt64 | drawOf w = draw}.ncard = 2 ^ 41 := by
  have range : {w : UInt64 | drawOf w = draw} = Set.range (around draw) := by
    ext w
    exact drawOf_eq_iff small w
  rw [range, ← Set.image_univ, Set.ncard_image_of_injective _ (around_injective small),
    Set.ncard_univ, Nat.card_prod, Nat.card_fin, Nat.card_fin, ← Nat.pow_add]

theorem card_drawAt (n : Nat) {draw : Nat} (small : draw < 2 ^ 23) :
    {w : UInt64 | drawAt w n = draw}.ncard = 2 ^ 41 := by
  have moved : {w : UInt64 | drawAt w n = draw} =
      Set.preimage step.apply^[n + 1] {w | drawOf w = draw} := by
    ext w
    simp only [Set.mem_ofPred_eq, Set.mem_preimage, drawAt_eq]
  rw [moved, ← Set.ncard_image_of_injective _ (iterate_step_bijective _).injective,
    Set.image_preimage_eq _ (iterate_step_bijective _).surjective, card_drawOf small]

/-- Draws from a set come from `2 ^ 41` words for each draw in it. -/
theorem card_drawAt_mem (n : Nat) (draws : Finset Nat) (small : ∀ draw ∈ draws, draw < 2 ^ 23) :
    {w : UInt64 | drawAt w n ∈ draws}.ncard = draws.card * 2 ^ 41 := by
  induction draws using Finset.induction_on with
  | empty => simp
  | insert draw rest fresh ih =>
    have split : {w : UInt64 | drawAt w n ∈ insert draw rest} =
        {w | drawAt w n = draw} ∪ {w | drawAt w n ∈ rest} := by
      ext w
      exact Finset.mem_insert
    have apart : Disjoint {w : UInt64 | drawAt w n = draw} {w | drawAt w n ∈ rest} := by
      rw [Set.disjoint_left]
      rintro w rfl member
      exact fresh member
    rw [split, Set.ncard_union_eq apart, card_drawAt n (small _ (Finset.mem_insert_self _ _)),
      ih fun d member => small d (Finset.mem_insert_of_mem member),
      Finset.card_insert_of_notMem fresh]
    ring

end Stream

end SeededChoice
