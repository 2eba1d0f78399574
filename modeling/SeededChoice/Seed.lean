import SeededChoice.Error
import SeededChoice.Hash.Murmur
import SeededChoice.Text.Utf8

/-!
# Seeds

A seed is an integer of 64 bits, or bytes or a text, which are hashed to 32 bits. `expand` is the
word that starts the stream of draws; the word, taken as a seed again, expands to itself.
-/

namespace SeededChoice

inductive Seed where
  | integer (n : Int)
  | bytes (data : List UInt8)
  /-- A text by its code points, which may include surrogates. -/
  | text (codePoints : List Nat)
  | boolean
  /-- A value of a kind that makes no seed. -/
  | other (kind : String)
  deriving DecidableEq, Repr

namespace Seed

def ofString (s : String) : Seed := .text (s.toList.map Char.toNat)

def ofWord (w : UInt64) : Seed := .integer w.toNat

def hashBytes (data : List UInt8) : UInt64 := UInt64.ofNat (Murmur.hash data 0)

/-- The word that starts the stream of draws. -/
def expand : Seed → Except Error UInt64
  | integer n =>
    if 0 ≤ n ∧ n < UInt64.size then .ok (UInt64.ofNat n.toNat) else .error (.seedOutOfRange n)
  | bytes data => .ok (hashBytes data)
  | text codePoints =>
    match Utf8.encode? codePoints with
    | some data => .ok (hashBytes data)
    | none => .error .unencodableText
  | boolean => .error .booleanSeed
  | other kind => .error (.unsupportedSeed kind)

/-- An expanded seed stands for itself. -/
theorem expand_ofWord (w : UInt64) : (ofWord w).expand = .ok w := by
  have h : (w.toNat : Int) < UInt64.size := Int.ofNat_lt.mpr w.toNat_lt
  simp only [ofWord, expand]
  rw [if_pos ⟨Int.natCast_nonneg _, h⟩]
  simp

end Seed

end SeededChoice
