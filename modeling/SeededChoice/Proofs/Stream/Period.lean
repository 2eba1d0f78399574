import Mathlib.Algebra.Ring.Periodic
import Mathlib.Dynamics.PeriodicPts.Lemmas
import Mathlib.Tactic.LinearCombination
import SeededChoice.Proofs.Seed.Numbers
import SeededChoice.Proofs.Stream.Equidistribution
import SeededChoice.Proofs.Stream.Run

/-!
# The period of the stream

The step runs through all `2 ^ 64` words before it comes back to one. Its draws see the lowest 48
bits of a word alone, and of these every one: two streams make the same draws exactly when their
first words agree there.
-/

namespace SeededChoice

open Function
open scoped UInt64.CommRing

namespace Affine

/-! ### Maps of full period -/

/-- Multiplies by a word that leaves one over multiples of four, and adds an odd word. -/
def IsFull (f : Affine) : Prop :=
  ∃ u v : UInt64, f.factor = 1 + 4 * u ∧ f.offset = 2 * v + 1

/-- The map applied `2 ^ k` times, by squaring. -/
def squared (f : Affine) : Nat → Affine
  | 0 => f
  | k + 1 => (f.squared k).twice

theorem apply_squared (f : Affine) (k : Nat) : (f.squared k).apply = f.apply^[2 ^ k] := by
  induction k with
  | zero => rfl
  | succ k ih =>
    funext x
    rw [squared, apply_twice, ih, ← iterate_add_apply, ← Nat.two_mul, pow_succ']

/-- Each squaring adds a factor of two to what the map multiplies by beyond one and to what it
adds, and leaves the rest of the latter odd. -/
theorem IsFull.squared_form {f : Affine} (full : f.IsFull) (k : Nat) :
    ∃ u v, (f.squared k).factor = 1 + 2 ^ (k + 2) * u ∧
      (f.squared k).offset = 2 ^ k * (2 * v + 1) := by
  induction k with
  | zero =>
    obtain ⟨u, v, factor, offset⟩ := full
    refine ⟨u, v, ?_, ?_⟩
    · rw [squared, factor]
      ring
    · rw [squared, offset]
      ring
  | succ k ih =>
    obtain ⟨u, v, factor, offset⟩ := ih
    refine ⟨u + 2 ^ (k + 1) * u * u, v + 2 ^ k * u * (2 * v + 1), ?_, ?_⟩
    · simp only [squared, twice, factor]
      ring
    · simp only [squared, twice, factor, offset]
      ring

/-- `2 ^ k` steps move a word by an odd multiple of `2 ^ k`. -/
theorem IsFull.iterate_two_pow {f : Affine} (full : f.IsFull) (k : Nat) (x : UInt64) :
    ∃ v, f.apply^[2 ^ k] x = x + 2 ^ k * (2 * v + 1) := by
  obtain ⟨u, v, factor, offset⟩ := full.squared_form k
  refine ⟨2 * u * x + v, ?_⟩
  rw [← apply_squared, apply, factor, offset]
  ring

theorem IsFull.iterate_mul_two_pow {f : Affine} (full : f.IsFull) (k n : Nat) (x : UInt64) :
    ∃ v, f.apply^[2 ^ k * n] x = x + 2 ^ k * v := by
  induction n with
  | zero => exact ⟨0, by simp⟩
  | succ n ih =>
    obtain ⟨v, moved⟩ := ih
    obtain ⟨w, stepped⟩ := full.iterate_two_pow k (f.apply^[2 ^ k * n] x)
    refine ⟨v + (2 * w + 1), ?_⟩
    rw [Nat.mul_succ, Nat.add_comm, iterate_add_apply, stepped, moved]
    ring

/-- An odd number of times `2 ^ k` steps still move a word by an odd multiple of `2 ^ k`. -/
theorem IsFull.iterate_odd {f : Affine} (full : f.IsFull) (k i : Nat) (x : UInt64) :
    ∃ v, f.apply^[2 ^ k * (2 * i + 1)] x = x + 2 ^ k * (2 * v + 1) := by
  obtain ⟨v, moved⟩ := full.iterate_mul_two_pow (k + 1) i x
  obtain ⟨w, stepped⟩ := full.iterate_two_pow k (f.apply^[2 ^ (k + 1) * i] x)
  refine ⟨v + w, ?_⟩
  rw [show 2 ^ k * (2 * i + 1) = 2 ^ k + 2 ^ (k + 1) * i by ring, iterate_add_apply, stepped, moved]
  ring

theorem IsFull.minimalPeriod_eq {f : Affine} (full : f.IsFull) (x : UInt64) :
    minimalPeriod f.apply x = 2 ^ 64 := by
  have prime : Fact (Nat.Prime 2) := ⟨Nat.prime_two⟩
  have whole : (2 : UInt64) ^ 64 = 0 := by decide +kernel
  have half : (2 : UInt64) ^ 63 ≠ 0 := by decide +kernel
  refine minimalPeriod_eq_prime_pow (k := 63) ?_ ?_
  · intro back
    obtain ⟨v, moved⟩ := full.iterate_two_pow 63 x
    have still : x + 2 ^ 63 * (2 * v + 1) = x := moved.symm.trans back
    have top : (2 : UInt64) ^ 63 * (2 * v + 1) = 2 ^ 63 := by linear_combination v * whole
    rw [top, add_eq_left] at still
    exact half still
  · obtain ⟨v, moved⟩ := full.iterate_two_pow 64 x
    have back : f.apply^[2 ^ 64] x = x := by rw [moved, whole, zero_mul, add_zero]
    exact back

/-- Every word is reached from every word. -/
theorem IsFull.exists_iterate {f : Affine} (full : f.IsFull) (x y : UInt64) :
    ∃ n, f.apply^[n] x = y := by
  have period := full.minimalPeriod_eq x
  have injective : Injective fun n : Fin (2 ^ 64) => (f.apply^[n] x).toFin := by
    intro m n same
    refine Fin.ext (iterate_injOn_Iio_minimalPeriod ?_ ?_ (UInt64.toFin_inj.mp same))
    · rw [Set.mem_Iio, period]
      exact m.isLt
    · rw [Set.mem_Iio, period]
      exact n.isLt
  obtain ⟨n, reached⟩ := Finite.injective_iff_surjective.mp injective y.toFin
  exact ⟨n, UInt64.toFin_inj.mp reached⟩

end Affine

namespace Seed

theorem hashBytes_modEq_iff (a b : List UInt8) :
    (hashBytes a).toNat ≡ (hashBytes b).toNat [MOD 2 ^ 48] ↔
      Murmur.hash a 0 = Murmur.hash b 0 := by
  have left := Murmur.hash_lt a 0
  have right := Murmur.hash_lt b 0
  rw [toNat_hashBytes, toNat_hashBytes]
  unfold Nat.ModEq
  omega

end Seed

namespace Stream

theorem step_isFull : step.IsFull :=
  ⟨0x3BB399B577BB399B, 1073741823, by decide, by decide⟩

/-! ### The states of a stream -/

theorem take_after {α : Type} [Scalar α] (start : UInt64) (k n : Nat) :
    ((after start k : Stream α).take n).2 = after start (k + n) := by
  induction n generalizing k with
  | zero => rfl
  | succ n ih =>
    rw [take, next_after]
    show ((after start (k + 1) : Stream α).take n).2 = _
    rw [ih, Nat.add_assoc, Nat.add_comm 1 n]

/-- Two counts of steps lead to the same word just when they differ by whole periods. -/
theorem iterate_step_eq_iff (start : UInt64) (m n : Nat) :
    step.apply^[m] start = step.apply^[n] start ↔ m ≡ n [MOD 2 ^ 64] := by
  have period := step_isFull.minimalPeriod_eq start
  have least (k : Nat) : k % 2 ^ 64 < minimalPeriod step.apply start := by
    rw [period]
    exact Nat.mod_lt _ (by decide)
  rw [← iterate_mod_minimalPeriod_eq (n := m), ← iterate_mod_minimalPeriod_eq (n := n), period]
  exact iterate_eq_iterate_iff_of_lt_minimalPeriod (least m) (least n)

/-! ### What the draws see of a word -/

/-- A draw is the upper 23 of the lowest 48 bits of its word. -/
theorem drawOf_eq_mod (w : UInt64) : drawOf w = w.toNat % 2 ^ 48 / 2 ^ 25 := by
  rw [drawOf_eq]
  omega

theorem toNat_apply_step_mod (w : UInt64) :
    (step.apply w).toNat % 2 ^ 48 =
      (0xEECE66D5DEECE66D * (w.toNat % 2 ^ 48) + 2147483647) % 2 ^ 48 := by
  rw [toNat_apply_step]
  omega

theorem iterate_step_mod {v w : UInt64} (same : v.toNat ≡ w.toNat [MOD 2 ^ 48]) (n : Nat) :
    (step.apply^[n] v).toNat ≡ (step.apply^[n] w).toNat [MOD 2 ^ 48] := by
  induction n with
  | zero => exact same
  | succ n ih =>
    unfold Nat.ModEq at ih ⊢
    rw [iterate_succ_apply', iterate_succ_apply', toNat_apply_step_mod, ih, ← toNat_apply_step_mod]

theorem drawAt_congr {v w : UInt64} (same : v.toNat ≡ w.toNat [MOD 2 ^ 48]) (n : Nat) :
    drawAt v n = drawAt w n := by
  rw [drawAt_eq, drawAt_eq, drawOf_eq_mod, drawOf_eq_mod, iterate_step_mod same (n + 1)]

/-- An odd multiple of `2 ^ 47` changes the leading bit of the draw. -/
theorem drawOf_add_odd (w v : UInt64) : drawOf (w + 2 ^ 47 * (2 * v + 1)) ≠ drawOf w := by
  have power : ((2 : UInt64) ^ 47).toNat = 2 ^ 47 := by decide +kernel
  rw [drawOf_eq_mod, drawOf_eq_mod]
  simp only [UInt64.toNat_add, UInt64.toNat_mul, power, UInt64.reduceToNat]
  omega

theorem toNat_add_mul_two_pow (w v : UInt64) :
    (w + 2 ^ 48 * v).toNat ≡ w.toNat [MOD 2 ^ 48] := by
  have power : ((2 : UInt64) ^ 48).toNat = 2 ^ 48 := by decide +kernel
  unfold Nat.ModEq
  simp only [UInt64.toNat_add, UInt64.toNat_mul, power]
  omega

/-- The draws repeat after a number of steps just when `2 ^ 48` divides it. -/
theorem periodic_drawAt_iff (start : UInt64) (k : Nat) :
    Periodic (drawAt start) k ↔ 2 ^ 48 ∣ k := by
  constructor
  · intro periodic
    by_contra indivisible
    have nonzero : k ≠ 0 := by
      rintro rfl
      exact indivisible (dvd_zero _)
    obtain ⟨j, _, ⟨i, rfl⟩, rfl⟩ := Nat.exists_eq_two_pow_mul_odd nonzero
    have small : j ≤ 47 := by
      by_contra large
      exact indivisible (Dvd.dvd.mul_right (pow_dvd_pow 2 (by omega)) _)
    -- A multiple of the period moves the word by an odd multiple of `2 ^ 47`.
    have multiple : Periodic (drawAt start) (2 ^ 47 * (2 * i + 1)) := by
      have scaled := periodic.nat_mul (2 ^ (47 - j))
      rwa [Nat.cast_id, ← mul_assoc, ← pow_add, Nat.sub_add_cancel small] at scaled
    obtain ⟨v, moved⟩ := step_isFull.iterate_odd 47 i (step.apply start)
    have again := multiple 0
    rw [drawAt_eq, drawAt_eq, zero_add, iterate_succ_apply, moved, zero_add,
      iterate_one] at again
    exact drawOf_add_odd _ _ again
  · rintro ⟨q, rfl⟩ n
    obtain ⟨v, moved⟩ := step_isFull.iterate_mul_two_pow 48 q start
    have same : (step.apply^[2 ^ 48 * q] start).toNat ≡ start.toNat [MOD 2 ^ 48] := by
      rw [moved]
      exact toNat_add_mul_two_pow _ _
    have shifted := drawAt_congr same n
    rwa [drawAt_eq, ← iterate_add_apply, show n + 1 + 2 ^ 48 * q = n + 2 ^ 48 * q + 1 by ring,
      ← drawAt_eq] at shifted

/-- Two words start the same draws just when their lowest 48 bits agree. -/
theorem drawAt_eq_iff (v w : UInt64) :
    (∀ n, drawAt v n = drawAt w n) ↔ v.toNat ≡ w.toNat [MOD 2 ^ 48] := by
  refine ⟨fun same => ?_, drawAt_congr⟩
  obtain ⟨k, reached⟩ := step_isFull.exists_iterate v w
  have periodic : Periodic (drawAt v) k := by
    intro n
    rw [same n, ← reached, drawAt_eq, drawAt_eq, ← iterate_add_apply, Nat.add_right_comm]
  obtain ⟨q, rfl⟩ := (periodic_drawAt_iff v k).mp periodic
  obtain ⟨u, moved⟩ := step_isFull.iterate_mul_two_pow 48 q v
  rw [← reached, moved]
  exact (toNat_add_mul_two_pow v u).symm

/-! ### Seeds -/

theorem toUnit_inj {m n : Nat} (left : m < 2 ^ 23) (right : n < 2 ^ 23)
    (same : (toUnit m : Float) = toUnit n) : m = n := by
  have values := congrArg Double.value? same
  rw [value?_toUnit left, value?_toUnit right, Option.some_inj, div_left_inj' (by norm_num)] at values
  exact_mod_cast values

/-- Two seeds give the same doubles just when the lowest 48 bits of their expansions agree. -/
theorem uniformOf_eq_iff {s t : Seed} {v w : UInt64} (left : s.expand = .ok v)
    (right : t.expand = .ok w) :
    (∀ n : Nat, (uniformOf s (.integer n) : Except Error Float) = uniformOf t (.integer n)) ↔
      v.toNat ≡ w.toNat [MOD 2 ^ 48] := by
  rw [← drawAt_eq_iff]
  refine forall_congr' fun n => ?_
  rw [uniformOf_natural left, uniformOf_natural right, Except.ok.injEq, uniformAt, uniformAt]
  exact ⟨toUnit_inj (drawAt_lt v n) (drawAt_lt w n), congrArg _⟩

/-- The words of a stream come back after `2 ^ 64` draws and not before, and two of them are the
same just when whole periods lie between. Two seeds give the same draws just when their expansions
agree in the lowest 48 bits: so the 16 bits above these never count, and bytes share their draws
just when their hashes collide. -/
theorem period_and_shared_draws {s t : Seed} {v w : UInt64} (left : s.expand = .ok v)
    (right : t.expand = .ok w) :
    (∃ opened : Stream Float, ofSeed s = .ok opened ∧ opened.word = v ∧
      minimalPeriod step.apply v = 2 ^ 64 ∧
      ∀ m n, (opened.take m).2.word = (opened.take n).2.word ↔ m ≡ n [MOD 2 ^ 64]) ∧
    ((∀ n : Nat, (uniformOf s (.integer n) : Except Error Float) = uniformOf t (.integer n)) ↔
      v.toNat ≡ w.toNat [MOD 2 ^ 48]) ∧
    (∀ i j low : Nat, i < 2 ^ 16 → j < 2 ^ 16 → low < 2 ^ 48 → ∀ n : Nat,
      (uniformOf (.integer (i * 2 ^ 48 + low : Nat)) (.integer n) : Except Error Float) =
        uniformOf (.integer (j * 2 ^ 48 + low : Nat)) (.integer n)) ∧
    ∀ a b : List UInt8,
      (∀ n : Nat, (uniformOf (.bytes a) (.integer n) : Except Error Float) =
        uniformOf (.bytes b) (.integer n)) ↔ Murmur.hash a 0 = Murmur.hash b 0 := by
  refine ⟨⟨ofWord v, by rw [ofSeed, left]; rfl, rfl, step_isFull.minimalPeriod_eq v, ?_⟩,
    uniformOf_eq_iff left right, ?_, ?_⟩
  · intro m n
    rw [ofWord_eq_after, take_after, take_after, Nat.zero_add, Nat.zero_add]
    exact iterate_step_eq_iff v m n
  · intro i j low smallI smallJ smallLow
    have size {k : Nat} (small : k < 2 ^ 16) : k * 2 ^ 48 + low < 2 ^ 64 := by omega
    refine (uniformOf_eq_iff (Seed.expand_integer (size smallI))
      (Seed.expand_integer (size smallJ))).mpr ?_
    rw [UInt64.toNat_ofNat_of_lt' (size smallI), UInt64.toNat_ofNat_of_lt' (size smallJ)]
    exact (Nat.mul_add_mod_of_lt smallLow).trans (Nat.mul_add_mod_of_lt smallLow).symm
  · intro a b
    rw [uniformOf_eq_iff (s := .bytes a) (t := .bytes b) rfl rfl, Seed.hashBytes_modEq_iff]

/-- A text, and an integer that its hash is the lowest 48 bits of. -/
theorem period_and_shared_draws_of_text :
    (Seed.ofString "abc").expand = .ok 3017643002 ∧
      (Seed.integer (2 ^ 48 + 3017643002)).expand = .ok 281477994353658 ∧
      (∀ n : Nat, (uniformOf (.ofString "abc") (.integer n) : Except Error Float) =
        uniformOf (.integer (2 ^ 48 + 3017643002)) (.integer n)) := by
  have left : (Seed.ofString "abc").expand = .ok 3017643002 := by decide +kernel
  have right : (Seed.integer (2 ^ 48 + 3017643002)).expand = .ok 281477994353658 := by decide +kernel
  obtain ⟨-, shared, -⟩ := period_and_shared_draws left right
  exact ⟨left, right, shared.mpr (by decide +kernel)⟩

end Stream

end SeededChoice
