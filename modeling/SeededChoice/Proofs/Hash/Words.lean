import Mathlib.Data.Int.ModEq
import SeededChoice.Hash.Murmur

/-!
# The hash in words

The same hash as its reference gives it: in words of 32 bits that wrap around, with the blocks taken
by their index and the bytes left over joined from the last to the first. Numbers that are cut to 32
bits where they have to be come to the same, as long as the number of bytes fits a word.
-/

namespace SeededChoice.Murmur

/-! ### The reference -/

namespace Reference

def rotate (w k : UInt32) : UInt32 := (w <<< k) ||| (w >>> (32 - k))

def mixKey (k : UInt32) : UInt32 := rotate (k * 0xCC9E2D51) 15 * 0x1B873593

def mixBlock (h k : UInt32) : UInt32 := rotate (h ^^^ mixKey k) 13 * 5 + 0xE6546B64

def avalanche (h : UInt32) : UInt32 :=
  let h := (h ^^^ (h >>> 16)) * 0x85EBCA6B
  let h := (h ^^^ (h >>> 13)) * 0xC2B2AE35
  h ^^^ (h >>> 16)

def byte (bytes : List UInt8) (i : Nat) : UInt32 := (bytes.getD i 0).toUInt32

def block (bytes : List UInt8) (i : Nat) : UInt32 :=
  byte bytes (4 * i) ||| byte bytes (4 * i + 1) <<< 8 ||| byte bytes (4 * i + 2) <<< 16 |||
    byte bytes (4 * i + 3) <<< 24

def body (seed : UInt32) (bytes : List UInt8) : UInt32 :=
  (List.range (bytes.length / 4)).foldl (fun h i => mixBlock h (block bytes i)) seed

/-- What is left over after the blocks. -/
def tail (bytes : List UInt8) : List UInt8 := bytes.drop (4 * (bytes.length / 4))

/-- The bytes left over, of which each case falls through to the next. -/
def tailKey (bytes : List UInt8) : UInt32 :=
  let k := if 3 ≤ bytes.length then byte bytes 2 <<< 16 else 0
  let k := if 2 ≤ bytes.length then k ^^^ byte bytes 1 <<< 8 else k
  if 1 ≤ bytes.length then k ^^^ byte bytes 0 else k

def mixTail (h : UInt32) (bytes : List UInt8) : UInt32 :=
  if bytes.isEmpty then h else h ^^^ mixKey (tailKey bytes)

/-- The state after all bytes. -/
def state (seed : UInt32) (bytes : List UInt8) : UInt32 :=
  mixTail (body seed bytes) (tail bytes)

def hash (bytes : List UInt8) (seed : UInt32) : UInt32 :=
  avalanche (state seed bytes ^^^ UInt32.ofNat bytes.length)

end Reference

open Reference

/-! ### Numbers cut to a word -/

theorem low_eq_mod (n : Nat) : low n = n % 2 ^ 32 := Nat.and_two_pow_sub_one_eq_mod n 32

section
variable {n m : Nat} {c d k : UInt32}

theorem low_mul (w : UInt32) (factor : c.toNat = n) : low (w.toNat * n) = (w * c).toNat := by
  rw [low_eq_mod, ← factor, UInt32.toNat_mul]

theorem low_mul_add (w : UInt32) (factor : c.toNat = n) (summand : d.toNat = m) :
    low (w.toNat * n + m) = (w * c + d).toNat := by
  rw [low_eq_mod, ← factor, ← summand, UInt32.toNat_add, UInt32.toNat_mul, Nat.mod_add_mod]

theorem toNat_shift (w : UInt32) (shift : k.toNat = n) (small : n < 32) :
    w.toNat ^^^ w.toNat >>> n = (w ^^^ w >>> k).toNat := by
  rw [← shift] at small ⊢
  rw [UInt32.toNat_xor, UInt32.toNat_shiftRight, Nat.mod_eq_of_lt small]

theorem rotateLeft_toNat (w : UInt32) (shift : k.toNat = n) (positive : 0 < n) (small : n < 32) :
    rotateLeft w.toNat n = (rotate w k).toNat := by
  subst shift
  have back : (32 - k).toNat = 32 - k.toNat := UInt32.toNat_sub_of_le 32 k small.le
  have right : w.toNat >>> (32 - k.toNat) < 2 ^ 32 :=
    (Nat.shiftRight_le _ _).trans_lt w.toNat_lt
  rw [rotateLeft, rotate, low_eq_mod, UInt32.toNat_or, UInt32.toNat_shiftLeft,
    UInt32.toNat_shiftRight, back, Nat.or_mod_two_pow, Nat.mod_eq_of_lt small,
    Nat.mod_eq_of_lt right, Nat.mod_eq_of_lt (by omega : 32 - k.toNat < 32)]

end

theorem scramble_toNat (w : UInt32) : scramble w.toNat = (mixKey w).toNat := by
  rw [scramble, low_mul (n := 0xCC9E2D51) (c := 0xCC9E2D51) w rfl,
    rotateLeft_toNat (n := 15) (k := 15) _ rfl (by decide) (by decide),
    low_mul (n := 0x1B873593) (c := 0x1B873593) _ rfl, mixKey]

theorem absorb_toNat (h w : UInt32) : absorb h.toNat w.toNat = (mixBlock h w).toNat := by
  rw [absorb, scramble_toNat, ← UInt32.toNat_xor,
    rotateLeft_toNat (n := 13) (k := 13) _ rfl (by decide) (by decide),
    low_mul_add (n := 5) (m := 0xE6546B64) (c := 5) (d := 0xE6546B64) _ rfl rfl, mixBlock]

/-! ### Bytes and blocks -/

theorem or_shiftLeft {x k : Nat} (y : Nat) (small : x < 2 ^ k) :
    x ||| y <<< k = x + 2 ^ k * y := by
  rw [Nat.shiftLeft_eq, mul_comm y, Nat.or_comm, ← Nat.two_pow_add_eq_or_of_lt small, add_comm]

theorem shiftLeft_xor {x k : Nat} (y : Nat) (small : x < 2 ^ k) :
    y <<< k ^^^ x = x + 2 ^ k * y := by
  apply Nat.eq_of_testBit_eq
  intro i
  rw [add_comm, Nat.testBit_two_pow_mul_add _ small, Nat.testBit_xor, Nat.testBit_shiftLeft]
  by_cases below : i < k
  · simp [below, not_le.mpr below]
  · have outside : x.testBit i = false :=
      Nat.testBit_lt_two_pow (small.trans_le (Nat.pow_le_pow_right (by decide) (not_lt.mp below)))
    simp [below, outside, not_lt.mp below]

theorem toNat_place (x : UInt8) {k : UInt32} (inside : k.toNat ≤ 24) :
    (x.toUInt32 <<< k).toNat = x.toNat <<< k.toNat := by
  have size := x.toNat_lt
  have shifted : x.toNat <<< k.toNat < 2 ^ 32 := by
    rw [Nat.shiftLeft_eq]
    calc x.toNat * 2 ^ k.toNat ≤ x.toNat * 2 ^ 24 :=
          Nat.mul_le_mul_left _ (Nat.pow_le_pow_right (by decide) inside)
      _ < 2 ^ 32 := by omega
  rw [UInt32.toNat_shiftLeft, UInt8.toNat_toUInt32, Nat.mod_eq_of_lt (by omega : k.toNat < 32),
    Nat.mod_eq_of_lt shifted]

/-- The bytes of a block, each put in its place. -/
theorem number_block (a b c d : UInt8) (rest : List UInt8) :
    number [a, b, c, d] = (block (a :: b :: c :: d :: rest) 0).toNat := by
  have first : a.toNat < 2 ^ 8 := a.toNat_lt
  have second := b.toNat_lt
  have third := c.toNat_lt
  show _ = (a.toUInt32 ||| b.toUInt32 <<< 8 ||| c.toUInt32 <<< 16 ||| d.toUInt32 <<< 24).toNat
  rw [UInt32.toNat_or, UInt32.toNat_or, UInt32.toNat_or, UInt8.toNat_toUInt32,
    toNat_place b (by decide), toNat_place c (by decide), toNat_place d (by decide)]
  show _ = ((a.toNat ||| b.toNat <<< 8) ||| c.toNat <<< 16) ||| d.toNat <<< 24
  rw [or_shiftLeft b.toNat first, or_shiftLeft (k := 16) c.toNat (by omega),
    or_shiftLeft (k := 24) d.toNat (by omega)]
  simp only [number]
  omega

theorem number_tail {bytes : List UInt8} (short : bytes.length < 4) :
    number bytes = (tailKey bytes).toNat := by
  match bytes, short with
  | [], _ => rfl
  | [a], _ =>
    show a.toNat + 256 * 0 = (0 ^^^ a.toUInt32).toNat
    rw [UInt32.zero_xor, UInt8.toNat_toUInt32, Nat.mul_zero, Nat.add_zero]
  | [a, b], _ =>
    show _ = (((0 : UInt32) ^^^ b.toUInt32 <<< 8) ^^^ a.toUInt32).toNat
    rw [UInt32.zero_xor, UInt32.toNat_xor, UInt8.toNat_toUInt32, toNat_place b (by decide)]
    show _ = b.toNat <<< 8 ^^^ a.toNat
    rw [shiftLeft_xor b.toNat a.toNat_lt]
    rfl
  | [a, b, c], _ =>
    show _ = ((c.toUInt32 <<< 16 ^^^ b.toUInt32 <<< 8) ^^^ a.toUInt32).toNat
    rw [UInt32.toNat_xor, UInt32.toNat_xor, UInt8.toNat_toUInt32, toNat_place b (by decide),
      toNat_place c (by decide)]
    show _ = (c.toNat <<< 16 ^^^ b.toNat <<< 8) ^^^ a.toNat
    have first := a.toNat_lt
    have second := b.toNat_lt
    rw [Nat.xor_assoc, shiftLeft_xor b.toNat first, shiftLeft_xor (k := 16) c.toNat (by omega)]
    simp only [number]
    omega

/-! ### The state -/

theorem body_block (h : UInt32) (a b c d : UInt8) (rest : List UInt8) :
    body h (a :: b :: c :: d :: rest) =
      body (mixBlock h (block (a :: b :: c :: d :: rest) 0)) rest := by
  have count : (a :: b :: c :: d :: rest).length / 4 = rest.length / 4 + 1 := by
    simp only [List.length_cons]
    omega
  rw [body, count, List.range_succ_eq_map, List.foldl_cons, List.foldl_map]
  rfl

theorem tail_block (a b c d : UInt8) (rest : List UInt8) :
    tail (a :: b :: c :: d :: rest) = tail rest := by
  have count : 4 * ((a :: b :: c :: d :: rest).length / 4) = 4 * (rest.length / 4) + 4 := by
    simp only [List.length_cons]
    omega
  rw [tail, count]
  rfl

theorem body_short {bytes : List UInt8} (short : bytes.length < 4) (h : UInt32) :
    body h bytes = h := by
  rw [body, Nat.div_eq_of_lt short]
  rfl

theorem tail_short {bytes : List UInt8} (short : bytes.length < 4) : tail bytes = bytes := by
  rw [tail, Nat.div_eq_of_lt short]
  rfl

theorem absorbAll_short {bytes : List UInt8} (short : bytes.length < 4) (state : Nat) :
    absorbAll state bytes = state ^^^ scramble (number bytes) := by
  match bytes, short with
  | [], _ => exact (Nat.xor_zero state).symm
  | [_], _ | [_, _], _ | [_, _, _], _ => rfl

theorem mixTail_short {bytes : List UInt8} (short : bytes.length < 4) (h : UInt32) :
    mixTail h bytes = h ^^^ mixKey (tailKey bytes) := by
  match bytes, short with
  | [], _ => exact UInt32.xor_zero.symm
  | [_], _ | [_, _], _ | [_, _, _], _ => rfl

theorem absorbAll_toNat (h : UInt32) (bytes : List UInt8) :
    absorbAll h.toNat bytes = (state h bytes).toNat := by
  by_cases short : bytes.length < 4
  · rw [absorbAll_short short, number_tail short, scramble_toNat, ← UInt32.toNat_xor,
      state, body_short short, tail_short short, mixTail_short short]
  · match bytes with
    | a :: b :: c :: d :: rest =>
      rw [absorbAll, number_block a b c d rest, absorb_toNat, absorbAll_toNat _ rest, state,
        state, body_block, tail_block]
    | [] | [_] | [_, _] | [_, _, _] => exact absurd (by simp) short

theorem start_eq (seed : Int) : start seed = (UInt32.ofInt seed).toNat := by
  have small : (seed % 0x100000000).toNat < 2 ^ 32 := by omega
  exact (UInt32.toNat_ofNat_of_lt' small).symm

/-! ### The avalanche -/

/-- What follows the first shift. -/
def settle (h : UInt32) : UInt32 :=
  let h := h * 0x85EBCA6B
  let h := (h ^^^ (h >>> 13)) * 0xC2B2AE35
  h ^^^ (h >>> 16)

/-- Only the first shift sees bits past a word. -/
theorem finish_eq (n : Nat) : finish n = (settle (UInt32.ofNat (n ^^^ n >>> 16))).toNat := by
  have first : low ((n ^^^ n >>> 16) * 0x85EBCA6B) =
      (UInt32.ofNat (n ^^^ n >>> 16) * 0x85EBCA6B).toNat := by
    rw [← low_mul _ rfl, UInt32.toNat_ofNat', low_eq_mod, low_eq_mod, Nat.mod_mul_mod]
    rfl
  rw [finish, first]
  rw [toNat_shift (n := 13) (k := 13) _ rfl (by decide),
    low_mul (n := 0xC2B2AE35) (c := 0xC2B2AE35) _ rfl,
    toNat_shift (n := 16) (k := 16) _ rfl (by decide), settle]

theorem finish_toNat (h : UInt32) : finish h.toNat = (avalanche h).toNat := by
  rw [finish_eq, toNat_shift (n := 16) (k := 16) _ rfl (by decide), UInt32.ofNat_toNat]
  rfl

/-! ### The hash -/

theorem hash_eq (bytes : List UInt8) (seed : Int) :
    hash bytes seed = finish ((state (UInt32.ofInt seed) bytes).toNat ^^^ bytes.length) := by
  rw [hash, start_eq, absorbAll_toNat]

theorem hash_lt (bytes : List UInt8) (seed : Int) : hash bytes seed < 2 ^ 32 := by
  rw [hash, finish_eq]
  exact UInt32.toNat_lt _

/-- In words. -/
theorem hash_eq_reference {bytes : List UInt8} (short : bytes.length < 2 ^ 32) (seed : Int) :
    hash bytes seed = (Reference.hash bytes (UInt32.ofInt seed)).toNat ∧
      hash bytes seed < 2 ^ 32 ∧
      ∀ other : Int, other ≡ seed [ZMOD 2 ^ 32] → hash bytes other = hash bytes seed := by
  refine ⟨?_, hash_lt bytes seed, fun other same => ?_⟩
  · have length : bytes.length = (UInt32.ofNat bytes.length).toNat :=
      (UInt32.toNat_ofNat_of_lt' short).symm
    rw [hash_eq, length, ← UInt32.toNat_xor, finish_toNat]
    rfl
  · have start : start other = start seed := congrArg Int.toNat same
    rw [hash, start, hash]

/-- Three blocks and one byte, as published, under a hash seed and one that is the same word. -/
theorem hash_eq_reference_greeting :
    hash "Hello, world!".toUTF8.toList 0x9747B28C = 0x24884CBA ∧
      hash "Hello, world!".toUTF8.toList (-0x68B84D74) = 0x24884CBA ∧
      hash "Hello, world!".toUTF8.toList 0x9747B28C < 2 ^ 32 := by
  have short : "Hello, world!".toUTF8.toList.length < 2 ^ 32 := by decide +kernel
  obtain ⟨words, small, congruent⟩ := hash_eq_reference short 0x9747B28C
  have published : hash "Hello, world!".toUTF8.toList 0x9747B28C = 0x24884CBA := by
    rw [words]
    decide +kernel
  exact ⟨published, (congruent _ rfl).trans published, small⟩

end SeededChoice.Murmur
