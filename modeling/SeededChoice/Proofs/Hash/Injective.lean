import Mathlib.Data.FinEnum
import Mathlib.Data.List.GetD
import Mathlib.Data.Nat.Bitwise
import Mathlib.Data.Set.Function
import SeededChoice.Proofs.Hash.Words

/-!
# What a hash keeps apart

Each step of the mixing can be undone: a product by an odd word, a rotation, a shift that is joined
to what it shifts. So bytes that differ within one block, or in what is left over, have different
hashes, and under a fixed string of bytes the hash seeds are a permutation of the hashes.
-/

namespace SeededChoice.Murmur

open Function Reference

/-! ### Steps that can be undone -/

theorem mul_injective {c d : UInt32} (unit : c * d = 1) : Injective (· * c) := by
  apply LeftInverse.injective (g := (· * d))
  intro w
  show w * c * d = w
  rw [UInt32.mul_assoc, unit, UInt32.mul_one]

theorem shift_thrice {k : UInt32} (large : 11 ≤ k.toNat) (small : k.toNat < 32) (w : UInt32) :
    w >>> k >>> k >>> k = 0 := by
  apply UInt32.toNat_inj.mp
  rw [UInt32.toNat_shiftRight, UInt32.toNat_shiftRight, UInt32.toNat_shiftRight,
    Nat.mod_eq_of_lt small, ← Nat.shiftRight_add, ← Nat.shiftRight_add, Nat.shiftRight_eq_div_pow]
  exact Nat.div_eq_of_lt (w.toNat_lt.trans_le (Nat.pow_le_pow_right Nat.two_pos (by omega)))

/-- A shift is undone by two more, where a third one leaves nothing. -/
theorem xorShift_injective {k : UInt32} (large : 11 ≤ k.toNat) (small : k.toNat < 32) :
    Injective fun w => w ^^^ w >>> k := by
  apply LeftInverse.injective (g := fun w => w ^^^ w >>> k ^^^ w >>> k >>> k)
  intro w
  show (w ^^^ w >>> k) ^^^ (w ^^^ w >>> k) >>> k ^^^ (w ^^^ w >>> k) >>> k >>> k = w
  rw [UInt32.shiftRight_xor, UInt32.shiftRight_xor, shift_thrice large small, UInt32.xor_zero,
    UInt32.xor_assoc w, ← UInt32.xor_assoc (w >>> k) (w >>> k), UInt32.xor_self, UInt32.zero_xor,
    UInt32.xor_assoc, UInt32.xor_self, UInt32.xor_zero]

/-- What a rotation makes of the upper bits and of the lower ones. -/
theorem toNat_rotate {k : UInt32} (positive : 0 < k.toNat) (small : k.toNat < 32) (w : UInt32) :
    (rotate w k).toNat =
        2 ^ k.toNat * (w.toNat % 2 ^ (32 - k.toNat)) + w.toNat / 2 ^ (32 - k.toNat) ∧
      w.toNat / 2 ^ (32 - k.toNat) < 2 ^ k.toNat := by
  have back : (32 - k).toNat = 32 - k.toNat := UInt32.toNat_sub_of_le 32 k small.le
  have size : 2 ^ k.toNat * 2 ^ (32 - k.toNat) = 2 ^ 32 := by
    rw [← pow_add, Nat.add_sub_cancel' small.le]
  have upper : w.toNat / 2 ^ (32 - k.toNat) < 2 ^ k.toNat :=
    Nat.div_lt_of_lt_mul (by rw [mul_comm, size]; exact w.toNat_lt)
  have lower : w.toNat <<< k.toNat % 2 ^ 32 = (w.toNat % 2 ^ (32 - k.toNat)) <<< k.toNat := by
    rw [Nat.shiftLeft_eq, Nat.shiftLeft_eq, mul_comm, ← size, Nat.mul_mod_mul_left, mul_comm]
  refine ⟨?_, upper⟩
  rw [rotate, UInt32.toNat_or, UInt32.toNat_shiftLeft, UInt32.toNat_shiftRight, back,
    Nat.mod_eq_of_lt small, Nat.mod_eq_of_lt (by omega : 32 - k.toNat < 32), lower,
    Nat.shiftRight_eq_div_pow, Nat.or_comm, or_shiftLeft _ upper, add_comm]

theorem rotate_injective {k : UInt32} (positive : 0 < k.toNat) (small : k.toNat < 32) :
    Injective (rotate · k) := by
  intro v w same
  obtain ⟨left, leftSmall⟩ := toNat_rotate positive small v
  obtain ⟨right, rightSmall⟩ := toNat_rotate positive small w
  have total := left.symm.trans ((congrArg UInt32.toNat same).trans right)
  have lower := congrArg (· / 2 ^ k.toNat) total
  have upper := congrArg (· % 2 ^ k.toNat) total
  simp only [Nat.mul_add_div (Nat.two_pow_pos _), Nat.mul_add_mod, Nat.div_eq_of_lt leftSmall,
    Nat.div_eq_of_lt rightSmall, Nat.mod_eq_of_lt leftSmall, Nat.mod_eq_of_lt rightSmall,
    Nat.add_zero] at lower upper
  apply UInt32.toNat_inj.mp
  rw [← Nat.div_add_mod v.toNat (2 ^ (32 - k.toNat)), upper, lower, Nat.div_add_mod]

theorem mixKey_injective : Injective mixKey :=
  (mul_injective (d := 0x56ED309B) (by decide)).comp
    ((rotate_injective (by decide) (by decide)).comp (mul_injective (d := 0xDEE13BB1) (by decide)))

/-- What is joined to the state can be undone, and the state too. -/
theorem joined_injective : Injective fun w : UInt32 => rotate w 13 * 5 + 0xE6546B64 := by
  have turned := rotate_injective (k := 13) (by decide) (by decide)
  have scaled := (mul_injective (c := 5) (d := 0xCCCCCCCD) (by decide)).comp turned
  exact fun v w same => scaled ((UInt32.add_left_inj _).mp same)

theorem mixBlock_injective_left (k : UInt32) : Injective (mixBlock · k) :=
  fun _ _ same => (UInt32.xor_left_inj _).mp (joined_injective same)

theorem mixBlock_injective (h : UInt32) : Injective (mixBlock h) :=
  fun _ _ same => mixKey_injective ((UInt32.xor_right_inj _).mp (joined_injective same))

theorem settle_injective : Injective settle :=
  (xorShift_injective (by decide) (by decide)).comp
    ((mul_injective (d := 0x7ED1B41D) (by decide)).comp
      ((xorShift_injective (by decide) (by decide)).comp
        (mul_injective (d := 0xA5CB9243) (by decide))))

/-- A number is known by its last mixing and by what it has past a word. -/
theorem finish_inj {m n : Nat} (same : finish m = finish n) (past : m / 2 ^ 32 = n / 2 ^ 32) :
    m = n := by
  rw [finish_eq, finish_eq] at same
  have words := congrArg UInt32.toNat (settle_injective (UInt32.toNat_inj.mp same))
  rw [UInt32.toNat_ofNat', UInt32.toNat_ofNat'] at words
  have above (i : Nat) : m.testBit (i + 32) = n.testBit (i + 32) := by
    rw [← Nat.testBit_div_two_pow, ← Nat.testBit_div_two_pow, past]
  have joined (i : Nat) (inside : i < 32) :
      (m.testBit i ^^ m.testBit (16 + i)) = (n.testBit i ^^ n.testBit (16 + i)) := by
    have bits := congrArg (Nat.testBit · i) words
    simpa only [Nat.testBit_mod_two_pow, inside, decide_true, Bool.true_and, Nat.testBit_xor,
      Nat.testBit_shiftRight] using bits
  -- The upper half of a word is joined to bits past it, the lower half to the upper one.
  have upper (i : Nat) (inside : i < 16) : m.testBit (16 + i) = n.testBit (16 + i) := by
    have bits := joined (16 + i) (by omega)
    rw [(by omega : 16 + (16 + i) = i + 32), above] at bits
    exact Bool.xor_left_inj.mp bits
  apply Nat.eq_of_testBit_eq
  intro i
  rcases Nat.lt_or_ge i 16 with low | high
  · have bits := joined i (by omega)
    rw [upper i low] at bits
    exact Bool.xor_left_inj.mp bits
  obtain ⟨j, rfl⟩ := Nat.exists_eq_add_of_le high
  rcases Nat.lt_or_ge j 16 with inside | past
  · exact upper j inside
  · obtain ⟨l, rfl⟩ := Nat.exists_eq_add_of_le past
    rw [(by omega : 16 + (16 + l) = l + 32), above]

/-! ### Bytes that make a word -/

theorem number_injective {xs ys : List UInt8} (length : xs.length = ys.length)
    (same : number xs = number ys) : xs = ys := by
  induction xs generalizing ys with
  | nil => exact (List.length_eq_zero_iff.mp length.symm).symm
  | cons x xs ih =>
    cases ys with
    | nil => cases length
    | cons y ys =>
      have left := x.toNat_lt
      have right := y.toNat_lt
      rw [number, number] at same
      have first : x = y := UInt8.toNat_inj.mp (by omega)
      rw [first, ih (Nat.succ.inj length) (by omega)]

theorem block_injective {xs ys : List UInt8} {i : Nat} (same : block xs i = block ys i) :
    ∀ j, j / 4 = i → xs.getD j 0 = ys.getD j 0 := by
  have bytes (zs : List UInt8) : (block zs i).toNat = number [zs.getD (4 * i) 0,
      zs.getD (4 * i + 1) 0, zs.getD (4 * i + 2) 0, zs.getD (4 * i + 3) 0] :=
    (number_block _ _ _ _ []).symm
  have numbers := congrArg UInt32.toNat same
  rw [bytes, bytes] at numbers
  have equal := number_injective (by rfl) numbers
  simp only [List.cons.injEq, and_true] at equal
  intro j inside
  have place : j = 4 * i ∨ j = 4 * i + 1 ∨ j = 4 * i + 2 ∨ j = 4 * i + 3 := by omega
  rcases place with rfl | rfl | rfl | rfl
  · exact equal.1
  · exact equal.2.1
  · exact equal.2.2.1
  · exact equal.2.2.2

theorem block_congr {xs ys : List UInt8} {i : Nat} (same : ∀ j, j / 4 = i → xs[j]? = ys[j]?) :
    block xs i = block ys i := by
  have bytes (j : Nat) (inside : j / 4 = i) : byte xs j = byte ys j := by
    rw [byte, byte, List.getD_eq_getElem?_getD, same j inside, List.getD_eq_getElem?_getD]
  rw [block, block, bytes _ (by omega), bytes _ (by omega), bytes _ (by omega), bytes _ (by omega)]

theorem tail_getElem? (bytes : List UInt8) (j : Nat) :
    (tail bytes)[j]? = bytes[4 * (bytes.length / 4) + j]? := List.getElem?_drop

theorem length_tail (bytes : List UInt8) : (tail bytes).length = bytes.length % 4 := by
  rw [tail, List.length_drop]
  omega

/-! ### The state -/

theorem mixTail_injective_left (bytes : List UInt8) : Injective (mixTail · bytes) := by
  intro g h same
  simp only [mixTail] at same
  split at same
  · exact same
  · exact (UInt32.xor_left_inj _).mp same

theorem mixTail_injective {xs ys : List UInt8} (length : xs.length = ys.length)
    (short : xs.length < 4) (h : UInt32) (same : mixTail h xs = mixTail h ys) : xs = ys := by
  rw [mixTail_short short, mixTail_short (length ▸ short), UInt32.xor_right_inj] at same
  have keys := congrArg UInt32.toNat (mixKey_injective same)
  rw [← number_tail short, ← number_tail (length ▸ short)] at keys
  exact number_injective length keys

/-- What is the same in each block is the same in the body. -/
theorem foldl_block_congr {xs ys : List UInt8} {n : Nat} (h : UInt32)
    (same : ∀ i < n, block xs i = block ys i) :
    (List.range n).foldl (fun h i => mixBlock h (block xs i)) h =
      (List.range n).foldl (fun h i => mixBlock h (block ys i)) h := by
  apply List.foldl_ext
  intro h i listed
  rw [same i (List.mem_range.mp listed)]

theorem body_injective_left (bytes : List UInt8) : Injective (body · bytes) := by
  unfold body
  induction bytes.length / 4 with
  | zero => exact injective_id
  | succ n ih =>
    intro g h same
    simp only [List.range_succ, List.foldl_append] at same
    exact ih (mixBlock_injective_left _ same)

/-- A block that differs makes states that differ, and what is the same after it keeps them so. -/
theorem foldl_block_ne {xs ys : List UInt8} {n b : Nat} (inside : b < n) (h : UInt32)
    (others : ∀ i < n, i ≠ b → block xs i = block ys i) (differ : block xs b ≠ block ys b) :
    (List.range n).foldl (fun h i => mixBlock h (block xs i)) h ≠
      (List.range n).foldl (fun h i => mixBlock h (block ys i)) h := by
  induction n with
  | zero => exact absurd inside (Nat.not_lt_zero b)
  | succ n ih =>
    rw [List.range_succ, List.foldl_append, List.foldl_append, List.foldl_cons, List.foldl_nil,
      List.foldl_cons, List.foldl_nil]
    rcases Nat.lt_succ_iff_lt_or_eq.mp inside with before | rfl
    · rw [others n (Nat.lt_succ_self n) (ne_of_gt before)]
      intro same
      exact ih before (fun i less => others i (Nat.lt_succ_of_lt less))
        (mixBlock_injective_left _ same)
    · rw [foldl_block_congr h fun i less => others i (Nat.lt_succ_of_lt less) (ne_of_lt less)]
      exact fun same => differ (mixBlock_injective _ same)

theorem state_injective_left (bytes : List UInt8) : Injective (state · bytes) :=
  fun _ _ same => body_injective_left bytes (mixTail_injective_left (tail bytes) same)

/-- Two strings of bytes of one length that differ in the block `b` and nowhere else, where what is
left over counts as the last block. -/
structure DifferWithin (b : Nat) (xs ys : List UInt8) : Prop where
  length : xs.length = ys.length
  elsewhere : ∀ j, j / 4 ≠ b → xs[j]? = ys[j]?
  differ : xs ≠ ys

section
variable {b : Nat} {xs ys : List UInt8} (within : DifferWithin b xs ys)
include within

theorem DifferWithin.block_eq {i : Nat} (other : i ≠ b) : block xs i = block ys i :=
  block_congr fun _ inside => within.elsewhere _ (inside ▸ other)

theorem DifferWithin.block_ne (whole : b < xs.length / 4) : block xs b ≠ block ys b := by
  intro same
  apply within.differ
  apply List.ext_getElem?
  intro j
  by_cases inside : j / 4 = b
  · have left : j < xs.length := by omega
    have right : j < ys.length := within.length ▸ left
    have bytes := block_injective same j inside
    rw [List.getD_eq_getElem _ _ left, List.getD_eq_getElem _ _ right] at bytes
    rw [List.getElem?_eq_getElem left, List.getElem?_eq_getElem right, bytes]
  · exact within.elsewhere j inside

theorem DifferWithin.tail_eq (whole : b < xs.length / 4) : tail xs = tail ys := by
  apply List.ext_getElem?
  intro j
  rw [tail_getElem?, tail_getElem?, ← within.length]
  exact within.elsewhere _ (by omega)

theorem DifferWithin.tail_ne (left : xs.length / 4 ≤ b) : tail xs ≠ tail ys := by
  intro same
  apply within.differ
  apply List.ext_getElem?
  intro j
  by_cases inside : j / 4 = b
  · obtain ⟨i, rfl⟩ : ∃ i, j = 4 * (xs.length / 4) + i :=
      ⟨j - 4 * (xs.length / 4), by omega⟩
    have bytes := congrArg (·[i]?) same
    simpa only [tail_getElem?, ← within.length] using bytes
  · exact within.elsewhere j inside

theorem DifferWithin.state_ne (h : UInt32) : state h xs ≠ state h ys := by
  have count : xs.length / 4 = ys.length / 4 := congrArg (· / 4) within.length
  intro same
  rw [state, state] at same
  rcases Nat.lt_or_ge b (xs.length / 4) with whole | left
  · rw [within.tail_eq whole] at same
    have bodies := mixTail_injective_left _ same
    rw [body, body, ← count] at bodies
    exact foldl_block_ne whole h (fun _ _ => within.block_eq) (within.block_ne whole) bodies
  · have bodies : body h xs = body h ys := by
      rw [body, body, ← count]
      exact foldl_block_congr h fun i less => within.block_eq (ne_of_lt (less.trans_le left))
    rw [bodies] at same
    apply within.tail_ne left
    apply mixTail_injective _ _ _ same
    · rw [length_tail, length_tail, within.length]
    · rw [length_tail]
      exact Nat.mod_lt _ (by decide)

end

/-- The state after whole blocks, and what is left over. -/
theorem state_append {blocks left : List UInt8} (whole : 4 ∣ blocks.length)
    (short : left.length < 4) (h : UInt32) : state h (blocks ++ left) = mixTail (body h blocks) left := by
  have count : (blocks ++ left).length / 4 = blocks.length / 4 := by
    rw [List.length_append]
    omega
  have rest : tail (blocks ++ left) = left := by
    rw [tail, count, Nat.mul_div_cancel' whole, List.drop_left]
  have bodies : body h (blocks ++ left) = body h blocks := by
    unfold body
    rw [count]
    apply foldl_block_congr
    intro i inside
    apply block_congr
    intro j part
    exact List.getElem?_append_left (by omega)
  rw [state, rest, bodies]

/-! ### Hashes -/

theorem hash_inj {xs ys : List UInt8} {s t : Int}
    (past : xs.length / 2 ^ 32 = ys.length / 2 ^ 32) (same : hash xs s = hash ys t) :
    (state (UInt32.ofInt s) xs).toNat ^^^ xs.length =
      (state (UInt32.ofInt t) ys).toNat ^^^ ys.length := by
  have length (h : UInt32) (n : Nat) : (h.toNat ^^^ n) / 2 ^ 32 = n / 2 ^ 32 := by
    rw [Nat.xor_div_two_pow, Nat.div_eq_of_lt h.toNat_lt, Nat.zero_xor]
  rw [hash_eq, hash_eq] at same
  exact finish_inj same (by rw [length, length, past])

theorem start_toNat (h : UInt32) : start h.toNat = h.toNat := by
  have size := h.toNat_lt
  rw [start]
  omega

/-- Words as hash seeds. -/
theorem hash_word_injective (bytes : List UInt8) :
    Injective fun h : UInt32 => hash bytes h.toNat := by
  intro g h same
  have states := hash_inj rfl same
  rw [Nat.xor_left_inj, UInt32.toNat_inj] at states
  have starts := congrArg UInt32.toNat (state_injective_left bytes states)
  rw [← start_eq, ← start_eq, start_toNat, start_toNat] at starts
  exact UInt32.toNat_inj.mp starts

theorem hash_seed_bijOn (bytes : List UInt8) :
    Set.BijOn (hash bytes) {s | 0 ≤ s ∧ s < 2 ^ 32} {h | h < 2 ^ 32} := by
  have word (s : Int) (inside : 0 ≤ s ∧ s < 2 ^ 32) :
      ∃ h : UInt32, (h.toNat : Int) = s := by
    obtain ⟨nonneg, less⟩ := inside
    have small : s.toNat < 2 ^ 32 := by omega
    refine ⟨UInt32.ofNat s.toNat, ?_⟩
    rw [UInt32.toNat_ofNat_of_lt' small, Int.toNat_of_nonneg nonneg]
  refine ⟨fun s _ => hash_lt bytes s, ?_, ?_⟩
  · intro s first t second same
    obtain ⟨g, rfl⟩ := word s first
    obtain ⟨h, rfl⟩ := word t second
    rw [hash_word_injective bytes same]
  · intro n small
    -- As many words as hashes.
    have onto : Surjective fun h : UInt32 => UInt32.ofNat (hash bytes h.toNat) := by
      apply Finite.injective_iff_surjective.mp
      intro g h same
      have hashes := congrArg UInt32.toNat same
      simp only [UInt32.toNat_ofNat_of_lt' (hash_lt _ _)] at hashes
      exact hash_word_injective bytes hashes
    obtain ⟨h, reached⟩ := onto (UInt32.ofNat n)
    refine ⟨h.toNat, ⟨Int.natCast_nonneg _, by exact_mod_cast h.toNat_lt⟩, ?_⟩
    have hashes := congrArg UInt32.toNat reached
    rwa [UInt32.toNat_ofNat_of_lt' (hash_lt _ _), UInt32.toNat_ofNat_of_lt' small] at hashes

/-- Bytes that differ within one block, or in what is left over, have different hashes; under the
same bytes every hash comes of one hash seed; and zeros in place of missing bytes are told apart
from them. -/
theorem hash_separates (seed : Int) :
    (∀ (b : Nat) (xs ys : List UInt8), DifferWithin b xs ys → hash xs seed ≠ hash ys seed) ∧
    (∀ bytes : List UInt8, Set.BijOn (hash bytes) {s | 0 ≤ s ∧ s < 2 ^ 32} {h | h < 2 ^ 32}) ∧
    (∀ blocks s t : List UInt8, 4 ∣ blocks.length → s.length < 4 → t.length < 4 →
      s.length ≠ t.length → number s = number t →
        hash (blocks ++ s) seed ≠ hash (blocks ++ t) seed) ∧
    ∀ xs ys : List UInt8, xs.length = ys.length → xs.length ≤ 4 →
      hash xs seed = hash ys seed → xs = ys := by
  have differ (b : Nat) (xs ys : List UInt8) (within : DifferWithin b xs ys) :
      hash xs seed ≠ hash ys seed := by
    intro same
    have states := hash_inj (congrArg (· / 2 ^ 32) within.length) same
    rw [within.length, Nat.xor_left_inj, UInt32.toNat_inj] at states
    exact within.state_ne _ states
  refine ⟨differ, hash_seed_bijOn, ?_, ?_⟩
  · intro blocks s t whole shortS shortT other equal same
    have lengths : (blocks ++ s).length / 2 ^ 32 = (blocks ++ t).length / 2 ^ 32 := by
      rw [List.length_append, List.length_append]
      omega
    have states := hash_inj lengths same
    have keys : tailKey s = tailKey t := by
      rw [← UInt32.toNat_inj, ← number_tail shortS, ← number_tail shortT, equal]
    rw [state_append whole shortS, state_append whole shortT, mixTail_short shortS,
      mixTail_short shortT, keys, Nat.xor_right_inj, List.length_append,
      List.length_append] at states
    omega
  · intro xs ys length short same
    by_contra other
    apply differ 0 xs ys ⟨length, ?_, other⟩ same
    intro j outside
    rw [List.getElem?_eq_none (by omega), List.getElem?_eq_none (by omega)]

/-- A block of two, the byte left over after it, a zero at the end, and two strings of one block. -/
theorem hash_separates_few_bytes :
    hash [1, 2, 3, 4, 5, 6, 7, 8, 9] 7 ≠ hash [1, 2, 3, 4, 5, 255, 0, 8, 9] 7 ∧
    hash [1, 2, 3, 4, 5, 6, 7, 8, 9] 7 ≠ hash [1, 2, 3, 4, 5, 6, 7, 8, 0] 7 ∧
    Set.BijOn (hash [1, 2, 3]) {s | 0 ≤ s ∧ s < 2 ^ 32} {h | h < 2 ^ 32} ∧
    hash ([1, 2, 3, 4] ++ [5]) 7 ≠ hash ([1, 2, 3, 4] ++ [5, 0]) 7 ∧
    hash [1, 2, 3, 4] 7 ≠ hash [4, 3, 2, 1] 7 := by
  obtain ⟨differ, seeds, zeros, short⟩ := hash_separates 7
  refine ⟨differ 1 _ _ ⟨rfl, ?_, by decide⟩, differ 2 _ _ ⟨rfl, ?_, by decide⟩, seeds _,
    zeros [1, 2, 3, 4] [5] [5, 0] (by decide) (by decide) (by decide) (by decide) rfl,
    fun same => absurd (short [1, 2, 3, 4] [4, 3, 2, 1] rfl (by decide) same) (by decide)⟩
  all_goals
    intro j outside
    match j with
    | 0 | 1 | 2 | 3 | 4 | 7 => rfl
    | 5 | 6 | 8 => first | rfl | exact absurd rfl outside
    | j + 9 => rfl

end SeededChoice.Murmur
