/-!
# Spans

A half-open range of byte offsets, into a template or into the text of one expression.
-/

namespace Stencil

/-- The bytes from `start` up to, but not including, `stop`. -/
structure Span where
  start : Nat
  stop : Nat
  deriving DecidableEq, Repr, Inhabited

/-- The number of bytes of the span. -/
def Span.size (s : Span) : Nat := s.stop - s.start

end Stencil
