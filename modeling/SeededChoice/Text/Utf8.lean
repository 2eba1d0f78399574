/-!
# UTF-8

Texts are given by their code points, which may include surrogates; those have no encoding.
Decoding accepts exactly the shortest encodings of the other code points.
-/

namespace SeededChoice.Utf8

def isScalar (c : Nat) : Bool := c < 0xD800 || (0xE000 ≤ c && c < 0x110000)

/-- The byte after the leading one that holds the six bits of `c` above the lowest `shift`. -/
def continuation (c shift : Nat) : UInt8 := UInt8.ofNat (0x80 + (c >>> shift) % 64)

def encodeChar (c : Nat) : List UInt8 :=
  if c < 0x80 then [UInt8.ofNat c]
  else if c < 0x800 then [UInt8.ofNat (0xC0 + c / 64), continuation c 0]
  else if c < 0x10000 then
    [UInt8.ofNat (0xE0 + c / 4096), continuation c 6, continuation c 0]
  else [UInt8.ofNat (0xF0 + c / 262144), continuation c 12, continuation c 6, continuation c 0]

/-- The encoding of a text, unless it holds a surrogate. -/
def encode? (codePoints : List Nat) : Option (List UInt8) :=
  if codePoints.all isScalar then some (codePoints.flatMap encodeChar) else none

def encode (s : String) : List UInt8 := s.toList.flatMap fun c => encodeChar c.toNat

/-- How many continuation bytes follow a leading byte, and the bits that it gives. -/
def lead? (b : Nat) : Option (Nat × Nat) :=
  if b < 0x80 then some (0, b)
  else if b < 0xC0 then none
  else if b < 0xE0 then some (1, b - 0xC0)
  else if b < 0xF0 then some (2, b - 0xE0)
  else if b < 0xF8 then some (3, b - 0xF0)
  else none

/-- The code point of one encoded character and the bytes after it. -/
def decodeChar? : List UInt8 → Option (Nat × List UInt8)
  | [] => none
  | b :: rest => do
    let (more, bits) ← lead? b.toNat
    let tail := rest.take more
    let c := tail.foldl (fun c b => 64 * c + b.toNat % 64) bits
    if isScalar c && b :: tail == encodeChar c then some (c, rest.drop more) else none

def decodeUpTo : Nat → List UInt8 → Option (List Char)
  | _, [] => some []
  | 0, _ :: _ => none
  | n + 1, bytes => do
    let (c, rest) ← decodeChar? bytes
    let cs ← decodeUpTo n rest
    return Char.ofNat c :: cs

/-- The string that bytes encode, if they are well formed. -/
def decode? (bytes : List UInt8) : Option String :=
  (decodeUpTo bytes.length bytes).map String.ofList

end SeededChoice.Utf8
