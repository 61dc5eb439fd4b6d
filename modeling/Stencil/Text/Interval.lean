/-!
# Closed intervals of code points

A character class of the Unicode standard is a table of closed intervals, in ascending order and
without overlap. Membership asks each interval in turn; the tables are short enough for that.
-/

namespace Stencil.Text

/-- The code points from the first component to the second, both included. -/
abbrev Interval := Nat × Nat

/-- Whether the code point `n` lies in the interval. -/
def Interval.contains (n : Nat) (i : Interval) : Bool :=
  i.1 ≤ n && n ≤ i.2

end Stencil.Text
