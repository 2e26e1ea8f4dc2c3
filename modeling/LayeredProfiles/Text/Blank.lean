/-
Blank characters, and trimming them off both ends of a text.

The blanks are the five control characters U+0009 to U+000D, the Unicode space separators, the two line and paragraph
separators and the byte order mark; U+0085 and the zero-width space are none.
-/

namespace LayeredProfiles

/-- the characters that trimming removes -/
def isBlank (c : Char) : Bool :=
  let n := c.toNat
  (0x09 ≤ n && n ≤ 0x0d) || n == 0x20 || n == 0xa0 || n == 0x1680 || (0x2000 ≤ n && n ≤ 0x200a) ||
    n == 0x2028 || n == 0x2029 || n == 0x202f || n == 0x205f || n == 0x3000 || n == 0xfeff

/-- a text without the blanks at its end -/
def trimEnd (cs : List Char) : List Char := (cs.reverse.dropWhile isBlank).reverse

/-- a text without the blanks at its two ends -/
def trim (cs : List Char) : List Char := trimEnd (cs.dropWhile isBlank)

end LayeredProfiles
