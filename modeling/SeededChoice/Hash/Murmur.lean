/-!
# MurmurHash3, 32 bits

Bytes are mixed in four-byte little-endian blocks; the one to three bytes left over are mixed as
one shorter number, then the length, and a final avalanche makes every bit depend on every other.
Numbers have no width here: they are cut to 32 bits where a product, a sum or a rotation can carry
past these, and nowhere else.
-/

namespace SeededChoice.Murmur

/-- The lowest 32 bits. -/
def low (n : Nat) : Nat := n &&& 0xFFFFFFFF

def rotateLeft (n k : Nat) : Nat := low ((n <<< k) ||| (n >>> (32 - k)))

/-- Mixes a number before it joins the state. -/
def scramble (n : Nat) : Nat := low (rotateLeft (low (n * 0xCC9E2D51)) 15 * 0x1B873593)

/-- One block joins the state. -/
def absorb (state n : Nat) : Nat := low (rotateLeft (state ^^^ scramble n) 13 * 5 + 0xE6546B64)

def finish (h : Nat) : Nat :=
  let h := low ((h ^^^ (h >>> 16)) * 0x85EBCA6B)
  let h := low ((h ^^^ (h >>> 13)) * 0xC2B2AE35)
  h ^^^ (h >>> 16)

/-- The number that bytes make, the least significant first. -/
def number : List UInt8 → Nat
  | [] => 0
  | b :: rest => b.toNat + 256 * number rest

/-- The state after all blocks and the bytes left over. -/
def absorbAll (state : Nat) : List UInt8 → Nat
  | a :: b :: c :: d :: rest => absorbAll (absorb state (number [a, b, c, d])) rest
  | [] => state
  | tail => state ^^^ scramble (number tail)

/-- The state that a hash seed starts with. -/
def start (seed : Int) : Nat := (seed % 0x100000000).toNat

/-- The hash of bytes under a hash seed. -/
def hash (bytes : List UInt8) (seed : Int) : Nat :=
  finish (absorbAll (start seed) bytes ^^^ bytes.length)

end SeededChoice.Murmur
