import Stencil.Source.Span
import Stencil.Text.Bytes
import Stencil.Text.Search

/-!
# Interpolation markers

A text may hold expressions between double braces. A marker reaches from two opening braces to the
next two closing ones; it does not reach over a line break.
-/

namespace Stencil.Markup

/-- An interpolation in a text. -/
structure Marker where
  /-- The byte offset of the inside in the text. -/
  start : Nat
  /-- What stands between the braces. -/
  inside : List Char
  deriving DecidableEq, Repr

/-- The inside of the marker at the front of the text. -/
def markerInside? : List Char → Option (List Char)
  | '\x7b' :: '\x7b' :: cs =>
    match Text.cutAt ['\x7d', '\x7d'] cs with
    | some (inside, _) => if inside.contains '\n' then none else some inside
    | none => none
  | _ => none

/-- The markers of a text that starts at `offset`. The first `skip` characters belong to a marker
that has been taken. -/
def markersFrom : (offset skip : Nat) → List Char → List Marker
  | _, _, [] => []
  | offset, skip + 1, c :: cs => markersFrom (offset + c.utf8Size) skip cs
  | offset, 0, c :: cs =>
    match markerInside? (c :: cs) with
    | some inside => ⟨offset + 2, inside⟩ :: markersFrom (offset + c.utf8Size) (inside.length + 3) cs
    | none => markersFrom (offset + c.utf8Size) 0 cs

/-- The markers of a text, from left to right. -/
def markers (cs : List Char) : List Marker := markersFrom 0 0 cs

/-- The span of the inside of a marker, in a text that starts at `offset`. -/
def Marker.span (m : Marker) (offset : Nat) : Span :=
  ⟨offset + m.start, offset + m.start + Text.byteSize m.inside⟩

end Stencil.Markup
