import Stencil.Proofs.Source.Held
import Stencil.Source.Diagnostic

/-!
# Where a diagnostic points

A diagnostic is reported at a span, and what it has are the locations of the two ends. The offset of a
location is the one it was made from when that is between two characters, and otherwise the next one
that is (`offset_ofOffset`). Statements about diagnostics are about the source, so the span has to be
found again from the locations.

`Diagnostic.PointsAt` says that a diagnostic was reported at a span of a file; `PointsAt.span?` is
what can be read of it. `PointsAt.within` and `PointsAt.apartFrom` then carry the two relations that
are of use from the span to the diagnostic: reported inside of a piece that is cut out of the source,
or apart from it. For both the offsets must be in order, which `offset_ofOffset_mono` says of all
offsets, those inside of a character included. `start_of_ofSpan_eq` tells two places apart by their
ranges.

**What it does not establish.** Nothing is said of the text of a message or of its level, and a
diagnostic without a place points nowhere.
-/

namespace Stencil

open Text (byteSize takeBytes)

namespace Text

/-- Taking more bytes leaves no fewer. -/
theorem byteSize_takeBytes_mono {m n : Nat} (h : m ≤ n) (cs : List Char) :
    byteSize (takeBytes m cs) ≤ byteSize (takeBytes n cs) := by
  induction cs generalizing m n with
  | nil => exact Nat.le_refl _
  | cons c cs ih =>
    by_cases hm : m = 0
    · rw [takeBytes, if_pos hm]
      exact Nat.zero_le _
    · rw [takeBytes, takeBytes, if_neg hm, if_neg (by omega), byteSize_cons, byteSize_cons]
      have hrest : byteSize (takeBytes (m - c.utf8Size) cs) ≤ _ := ih (Nat.sub_le_sub_right h _)
      omega

/-- Between two characters, as many bytes are taken as are asked for. -/
theorem byteSize_takeBytes {n : Nat} {cs : List Char} (h : isBoundary n cs = true) :
    byteSize (takeBytes n cs) = n := by
  obtain ⟨before, after, rfl, rfl⟩ := isBoundary_iff.1 h
  rw [takeBytes_append]

end Text

namespace Location

variable {source : List Char}

/-- Going through a text leads further by its size. -/
theorem offset_foldl_step (l : Location) (cs : List Char) :
    (cs.foldl step l).offset = l.offset + byteSize cs := by
  induction cs generalizing l with
  | nil => rfl
  | cons c cs ih =>
    have hstep : (l.step c).offset = l.offset + c.utf8Size := by
      unfold step
      split <;> rfl
    rw [List.foldl_cons, ih, hstep, Text.byteSize_cons, Nat.add_assoc]

/-- The offset of a location is the size of the characters that begin before the offset it was made
from. -/
theorem offset_ofOffset (source : List Char) (n : Nat) :
    (ofOffset source n).offset = byteSize (takeBytes n source) := by
  rw [ofOffset, offset_foldl_step]
  exact Nat.zero_add _

/-- A greater offset has a location no earlier. -/
theorem offset_ofOffset_mono {m n : Nat} (h : m ≤ n) :
    (ofOffset source m).offset ≤ (ofOffset source n).offset := by
  rw [offset_ofOffset, offset_ofOffset]
  exact Text.byteSize_takeBytes_mono h source

/-- Between two characters, a location has the offset it was made from. -/
theorem offset_ofOffset_of_boundary {n : Nat} (h : Text.isBoundary n source = true) :
    (ofOffset source n).offset = n := by
  rw [offset_ofOffset, Text.byteSize_takeBytes h]

end Location

/-- Spans that start at different offsets have different ranges. -/
theorem SourceRange.start_of_ofSpan_eq {file : SourceFile} {s t : Span} (hs : s.Cuts file.content)
    (ht : t.Cuts file.content) (h : SourceRange.ofSpan file s = SourceRange.ofSpan file t) :
    s.start = t.start := by
  have hstart : Location.ofOffset file.content s.start = Location.ofOffset file.content t.start :=
    congrArg SourceRange.start h
  calc s.start = (Location.ofOffset file.content s.start).offset :=
        (Location.offset_ofOffset_of_boundary hs.start).symm
    _ = (Location.ofOffset file.content t.start).offset := by rw [hstart]
    _ = t.start := Location.offset_ofOffset_of_boundary ht.start

namespace Diagnostic

/-- The diagnostic was reported at the span. -/
def PointsAt (d : Diagnostic) (file : SourceFile) (span : Span) : Prop :=
  ∃ details, d.range = some { SourceRange.ofSpan file span with details }

/-- The bytes that the diagnostic points at. -/
def span? (d : Diagnostic) : Option Span := d.range.map fun r => ⟨r.start.offset, r.stop.offset⟩

/-- The diagnostic points at some place in the span. -/
def Within (d : Diagnostic) (span : Span) : Prop :=
  ∃ place, d.span? = some place ∧ span.start ≤ place.start ∧ place.stop ≤ span.stop

/-- The diagnostic points at a place that does not reach into the span. -/
def ApartFrom (d : Diagnostic) (span : Span) : Prop :=
  ∃ place, d.span? = some place ∧ place.Apart span

variable {d : Diagnostic} {file : SourceFile} {spot span : Span}

/-- The span that can be read of a diagnostic. -/
theorem PointsAt.span? (h : d.PointsAt file spot) : d.span? =
    some ⟨(Location.ofOffset file.content spot.start).offset,
      (Location.ofOffset file.content spot.stop).offset⟩ := by
  obtain ⟨details, hrange⟩ := h
  rw [Diagnostic.span?, hrange]
  rfl

/-- What is reported inside of a piece of the source is found there. -/
theorem PointsAt.within (h : d.PointsAt file spot) (hspan : span.Cuts file.content)
    (hstart : span.start ≤ spot.start) (hstop : spot.stop ≤ span.stop) : d.Within span := by
  refine ⟨_, h.span?, ?_, ?_⟩
  · calc span.start
        = (Location.ofOffset file.content span.start).offset :=
          (Location.offset_ofOffset_of_boundary hspan.start).symm
      _ ≤ (Location.ofOffset file.content spot.start).offset :=
          Location.offset_ofOffset_mono hstart
  · calc (Location.ofOffset file.content spot.stop).offset
        ≤ (Location.ofOffset file.content span.stop).offset :=
          Location.offset_ofOffset_mono hstop
      _ = span.stop := Location.offset_ofOffset_of_boundary hspan.stop

/-- What is reported apart from a piece of the source is not found in it. -/
theorem PointsAt.apartFrom (h : d.PointsAt file spot) (hspan : span.Cuts file.content)
    (hapart : spot.Apart span) : d.ApartFrom span := by
  refine ⟨_, h.span?, ?_⟩
  rcases hapart with hbefore | hbehind
  · left
    calc (Location.ofOffset file.content spot.stop).offset
        ≤ (Location.ofOffset file.content span.start).offset :=
          Location.offset_ofOffset_mono hbefore
      _ = span.start := Location.offset_ofOffset_of_boundary hspan.start
  · right
    calc span.stop
        = (Location.ofOffset file.content span.stop).offset :=
          (Location.offset_ofOffset_of_boundary hspan.stop).symm
      _ ≤ (Location.ofOffset file.content spot.start).offset :=
          Location.offset_ofOffset_mono hbehind

end Diagnostic

end Stencil
