import SeededChoice.Proofs.Hash.Words
import SeededChoice.Seed

/-!
# The number of a seed

An integer seed is its own number, and any other has its hash for one. Every such number is less
than `2 ^ 64`, so that a word can stand for it and nothing is cut off.
-/

namespace SeededChoice.Seed

variable {seed : Seed} {start : UInt64} {n : Nat}

inductive Expands : Seed → Nat → Prop
  | integer {n : Nat} (small : n < 2 ^ 64) : Expands (.integer n) n
  | bytes (data : List UInt8) : Expands (.bytes data) (Murmur.hash data 0)
  | text {codePoints : List Nat} {data : List UInt8}
      (encoded : Utf8.encode? codePoints = some data) :
      Expands (.text codePoints) (Murmur.hash data 0)

theorem Expands.lt (expands : seed.Expands n) : n < 2 ^ 64 := by
  have wide : 2 ^ 32 < 2 ^ 64 := by decide
  cases expands with
  | integer small => exact small
  | bytes data => exact (Murmur.hash_lt data 0).trans wide
  | @text codePoints data encoded => exact (Murmur.hash_lt data 0).trans wide

theorem toNat_hashBytes (data : List UInt8) : (hashBytes data).toNat = Murmur.hash data 0 :=
  UInt64.toNat_ofNat_of_lt' (Expands.bytes data).lt

theorem expand_integer (small : n < 2 ^ 64) : (integer n).expand = .ok (UInt64.ofNat n) := by
  have same : (UInt64.ofNat n).toNat = n := UInt64.toNat_ofNat_of_lt' small
  rw [← expand_ofWord, ofWord, same]

/-- The word of an expansion is the number of its seed, whole. -/
theorem Expands.of_expand (expanded : seed.expand = .ok start) : seed.Expands start.toNat := by
  cases seed with
  | integer n =>
    rw [expand] at expanded
    split at expanded
    · rename_i inside
      obtain ⟨m, rfl⟩ := Int.eq_ofNat_of_zero_le inside.1
      have small : m < 2 ^ 64 := Int.ofNat_lt.mp inside.2
      cases expanded
      rw [Int.toNat_natCast, UInt64.toNat_ofNat_of_lt' small]
      exact .integer small
    · cases expanded
  | bytes data =>
    cases expanded
    rw [toNat_hashBytes]
    exact .bytes data
  | text codePoints =>
    rw [expand] at expanded
    split at expanded
    · rename_i data encoded
      cases expanded
      rw [toNat_hashBytes]
      exact .text encoded
    · cases expanded
  | boolean => cases expanded
  | other kind => cases expanded

end SeededChoice.Seed
