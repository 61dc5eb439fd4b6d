import Stencil.Source.Span
import Stencil.Text.Bytes

/-!
# Edits of a source

A processed template is its source with some spans replaced. Edits may be recorded in any order. An
edit inside of another one has no effect, and neither has one that reaches past the end of the
source; between edits of the same span the one recorded first has effect.
-/

namespace Stencil

/-- The replacement of a span of the source by a text. -/
structure Edit where
  span : Span
  text : List Char
  deriving DecidableEq, Repr

namespace Edit

/-- The removal of a span. -/
def remove (span : Span) : Edit := ⟨span, []⟩

/-- The order in which edits are looked at: by their start, and the wider one first. -/
def le (a b : Edit) : Bool :=
  a.span.start < b.span.start || (a.span.start == b.span.start && b.span.stop ≤ a.span.stop)

/-- The source from the offset `cursor` on, with the edits applied that are ahead of it. -/
def applyFrom (source : List Char) : (cursor : Nat) → List Edit → List Char
  | cursor, [] => Text.dropBytes cursor source
  | cursor, e :: es =>
    if e.span.start < cursor || Text.byteSize source < e.span.stop then applyFrom source cursor es
    else Text.slice cursor e.span.start source ++ e.text ++ applyFrom source e.span.stop es

/-- The source with the edits applied. -/
def applyAll (source : List Char) (edits : List Edit) : List Char :=
  applyFrom source 0 (edits.mergeSort le)

end Edit

end Stencil
