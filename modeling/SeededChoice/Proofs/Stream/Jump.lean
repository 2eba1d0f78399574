import Mathlib.Data.UInt
import Mathlib.Logic.Function.Iterate
import Mathlib.Tactic.Ring
import SeededChoice.Stream

/-!
# Jumping ahead

`Affine.iterate` finds many steps at once by repeated squaring. `apply_iterate` shows that it is
the map applied one step after the other, whatever the number of steps.
-/

namespace SeededChoice

open Function
open scoped UInt64.CommRing

namespace Affine

theorem apply_id (x : UInt64) : Affine.id.apply x = x := by
  simp [Affine.id, apply]

theorem apply_andThen (f g : Affine) (x : UInt64) :
    (f.andThen g).apply x = g.apply (f.apply x) := by
  simp only [andThen, apply]
  ring

theorem apply_twice (f : Affine) (x : UInt64) : f.twice.apply x = f.apply (f.apply x) := by
  simp only [twice, apply]
  ring

theorem iterate_twice (f : Affine) (n : Nat) : f.twice.apply^[n] = f.apply^[2 * n] := by
  have squared : f.twice.apply = f.apply^[2] := funext (apply_twice f)
  rw [squared, ← iterate_mul]

/-- The loop invariant: what is accumulated, followed by what the remaining digits stand for. -/
theorem apply_repeatOver (digits : Nat) (acc f : Affine) (n : Nat) (enough : n < Nat.pow 2 digits)
    (x : UInt64) : (repeatOver digits acc f n).apply x = f.apply^[n] (acc.apply x) := by
  induction digits generalizing acc f n with
  | zero =>
    obtain rfl : n = 0 := by simpa using enough
    rfl
  | succ digits ih =>
    rw [repeatOver]
    split
    · rename_i exhausted
      rw [exhausted, iterate_zero_apply]
    have fewer : n / 2 < Nat.pow 2 digits := by
      have doubled : Nat.pow 2 (digits + 1) = Nat.pow 2 digits * 2 := rfl
      omega
    -- Twice the map under half the count leaves out the last digit, which `acc` has taken up.
    rw [ih _ _ _ fewer, iterate_twice]
    split
    · rename_i odd
      rw [apply_andThen, ← iterate_succ_apply, show (2 * (n / 2)).succ = n by omega]
    · rw [show 2 * (n / 2) = n by omega]

theorem apply_iterate (f : Affine) (n : Nat) (x : UInt64) :
    (f.iterate n).apply x = f.apply^[n] x := by
  rw [iterate, apply_repeatOver _ _ _ _ Nat.lt_log2_self, apply_id]

end Affine

namespace Stream

theorem toNat_apply_step (w : UInt64) :
    (step.apply w).toNat = (0xEECE66D5DEECE66D * w.toNat + 2147483647) % 2 ^ 64 := by
  simp only [step, Affine.apply, UInt64.toNat_add, UInt64.toNat_mul, UInt64.reduceToNat]
  omega

/-- The step on words is the congruential step on numbers. -/
theorem toNat_iterate_step (n : Nat) (w : UInt64) :
    (step.apply^[n] w).toNat =
      (fun x => (0xEECE66D5DEECE66D * x + 2147483647) % 2 ^ 64)^[n] w.toNat := by
  induction n with
  | zero => rfl
  | succ n ih => rw [iterate_succ_apply', iterate_succ_apply', toNat_apply_step, ih]

theorem drawAt_eq (start : UInt64) (n : Nat) :
    drawAt start n = drawOf (step.apply^[n + 1] start) := by
  rw [drawAt, Affine.apply_iterate]

/-- A draw is bits 25 to 47 of its word. -/
theorem drawOf_eq (w : UInt64) : drawOf w = w.toNat / 2 ^ 25 % 2 ^ 23 := by
  have window : (0x7FFFFF : Nat) = 2 ^ 23 - 1 := rfl
  simp only [drawOf, UInt64.toNat_and, UInt64.toNat_shiftRight, UInt64.reduceToNat, window,
    Nat.and_two_pow_sub_one_eq_mod, Nat.shiftRight_eq_div_pow]

theorem drawOf_lt (w : UInt64) : drawOf w < 2 ^ 23 := by
  rw [drawOf_eq]
  exact Nat.mod_lt _ (by decide)

theorem drawAt_lt (start : UInt64) (n : Nat) : drawAt start n < 2 ^ 23 := by
  rw [drawAt_eq]
  exact drawOf_lt _

end Stream

end SeededChoice
