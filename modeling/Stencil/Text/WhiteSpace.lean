import Stencil.Text.Interval

/-!
# White space and trimming

The property White_Space decides what `trim` removes. It is wider than the blanks between tokens
(`Stencil.Text.isBlank`): line and paragraph separators, the ideographic space and the fixed-width
spaces count, the zero-width space does not.
-/

namespace Stencil.Text

/-- The intervals of the property White_Space. -/
def whiteSpaceIntervals : List Interval :=
  [
    (0x0009, 0x000D), (0x0020, 0x0020), (0x0085, 0x0085), (0x00A0, 0x00A0), (0x1680, 0x1680),
    (0x2000, 0x200A), (0x2028, 0x2029), (0x202F, 0x202F), (0x205F, 0x205F), (0x3000, 0x3000) ]

/-- Whether `c` has the property White_Space. -/
def isWhiteSpace (c : Char) : Bool :=
  whiteSpaceIntervals.any (Interval.contains c.toNat)

/-- The text without the white space at its front. -/
def trimLeft (cs : List Char) : List Char := cs.dropWhile isWhiteSpace

/-- The text without the white space at its end. -/
def trimRight (cs : List Char) : List Char := (cs.reverse.dropWhile isWhiteSpace).reverse

/-- The text without the white space at both ends. -/
def trim (cs : List Char) : List Char := trimRight (trimLeft cs)

/-- `trim` on strings. -/
def trimString (s : String) : String := String.ofList (trim s.toList)

end Stencil.Text
