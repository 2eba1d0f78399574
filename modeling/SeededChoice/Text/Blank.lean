/-!
# Blanks

`isWhiteSpace` is the property White_Space of the character standard. `isSeparator` adds the four
information separators, which line formats also count as blank.
-/

namespace SeededChoice.Text

def isWhiteSpace (c : Char) : Bool :=
  let n := c.toNat
  (9 ≤ n && n ≤ 13) || n == 0x20 || n == 0x85 || n == 0xA0 || n == 0x1680 ||
    (0x2000 ≤ n && n ≤ 0x200A) || n == 0x2028 || n == 0x2029 || n == 0x202F || n == 0x205F ||
    n == 0x3000

/-- White space and the information separators. -/
def isSeparator (c : Char) : Bool :=
  isWhiteSpace c || (0x1C ≤ c.toNat && c.toNat ≤ 0x1F)

def trimEnd (blank : Char → Bool) (cs : List Char) : List Char :=
  (cs.reverse.dropWhile blank).reverse

def trim (blank : Char → Bool) (cs : List Char) : List Char := trimEnd blank (cs.dropWhile blank)

def lowerAscii (s : String) : String := String.ofList (s.toList.map Char.toLower)

end SeededChoice.Text
