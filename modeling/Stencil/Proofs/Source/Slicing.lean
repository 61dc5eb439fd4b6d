import Stencil.Proofs.Source.Diagnostic

/-!
# Cutting with a check

`Text.slice` and `Text.dropBytes` cut a text wherever they are told to, be it in the middle of a
character. A text that is stored as bytes has no such slice: the program would stop there. So the
functions here cut only where a text may be cut: the offsets are between two characters or at an end
of the text, and the first is not behind the second. Elsewhere they give nothing.

That they do give something is what it means for a span to fit the source (`Span.Fits`), and then they
give what the others give: `Fits.slice?` for a slice, `Location.ofOffset?_of_boundary` for a location,
`Fits.ofSpan?` for a range. A span that cuts a piece out of the source fits it (`Cuts.fits`), and so
does the empty span at any place between two characters (`Holds.fits`). With these a statement about
every cut that a run makes is a statement about the spans it records.

**What it does not establish.** Here stands only what fitting means. That the spans of a run fit their
sources is shown where they are made.
-/

namespace Stencil

open Text (byteSize isBoundary)

namespace Text

/-- The text after its first `n` bytes. -/
def dropBytes? (n : Nat) (cs : List Char) : Option (List Char) :=
  if isBoundary n cs then some (dropBytes n cs) else none

/-- The text before its byte offset `n`. -/
def takeBytes? (n : Nat) (cs : List Char) : Option (List Char) :=
  if isBoundary n cs then some (takeBytes n cs) else none

/-- The bytes from offset `start` up to offset `stop`. -/
def slice? (start stop : Nat) (cs : List Char) : Option (List Char) :=
  if start ≤ stop && isBoundary start cs && isBoundary stop cs then some (slice start stop cs)
  else none

/-- Between two characters, dropping with the check is dropping. -/
theorem dropBytes?_of_boundary {n : Nat} {cs : List Char} (h : isBoundary n cs = true) :
    dropBytes? n cs = some (dropBytes n cs) := if_pos h

/-- Between two characters, taking with the check is taking. -/
theorem takeBytes?_of_boundary {n : Nat} {cs : List Char} (h : isBoundary n cs = true) :
    takeBytes? n cs = some (takeBytes n cs) := if_pos h

/-- A place between two characters is within the text. -/
theorem le_byteSize_of_boundary {n : Nat} {cs : List Char} (h : isBoundary n cs = true) :
    n ≤ byteSize cs := by
  obtain ⟨before, after, rfl, rfl⟩ := isBoundary_iff.1 h
  rw [byteSize_append]
  exact Nat.le_add_right _ _

theorem isBoundary_zero (cs : List Char) : isBoundary 0 cs = true :=
  isBoundary_iff.2 ⟨[], cs, rfl, rfl⟩

theorem isBoundary_byteSize (cs : List Char) : isBoundary (byteSize cs) cs = true :=
  isBoundary_iff.2 ⟨cs, [], (List.append_nil _).symm, rfl⟩

end Text

namespace Span

variable {source piece : List Char} {span : Span}

/-- The source can be sliced at the span. -/
structure Fits (source : List Char) (span : Span) : Prop where
  ordered : span.start ≤ span.stop
  stop_le : span.stop ≤ byteSize source
  start : isBoundary span.start source = true
  stop : isBoundary span.stop source = true

/-- At a span that fits, slicing with the check is slicing. -/
theorem Fits.slice? (h : span.Fits source) :
    Text.slice? span.start span.stop source = some (Text.slice span.start span.stop source) := by
  rw [Text.slice?, if_pos]
  simp [h.ordered, h.start, h.stop]

/-- A span that cuts a piece out of the source fits it. -/
theorem Cuts.fits (h : span.Cuts source) : span.Fits source :=
  ⟨Nat.le_of_lt h.proper, h.stop_le, h.start, h.stop⟩

/-- A span that holds a piece fits the source, the empty piece included. -/
theorem Holds.fits (h : span.Holds source piece) : span.Fits source := by
  have hle := h.stop_le
  obtain ⟨before, after, rfl, rfl⟩ := h
  refine ⟨Nat.le_add_right _ _, hle, ?_, ?_⟩
  · exact Text.isBoundary_iff.2 ⟨before, piece ++ after, by simp, rfl⟩
  · exact Text.isBoundary_iff.2 ⟨before ++ piece, after, rfl, by simp⟩

/-- Slicing with the check gives the piece that the span holds. -/
theorem Holds.slice? (h : span.Holds source piece) :
    Text.slice? span.start span.stop source = some piece := by
  rw [h.fits.slice?, h.slice]

end Span

/-! ## Locations -/

/-- The location of a byte offset; one past the end stands for the end. -/
def Location.ofOffset? (source : List Char) (offset : Nat) : Option Location :=
  (Text.takeBytes? (min offset (byteSize source)) source).map fun before => before.foldl step origin

/-- The range of a span. -/
def SourceRange.ofSpan? (file : SourceFile) (span : Span) : Option SourceRange := do
  let start ← Location.ofOffset? file.content span.start
  let stop ← Location.ofOffset? file.content span.stop
  return { file, start, stop }

/-- Between two characters, the location is found with the check. -/
theorem Location.ofOffset?_of_boundary {source : List Char} {n : Nat}
    (h : isBoundary n source = true) : ofOffset? source n = some (ofOffset source n) := by
  rw [ofOffset?, Nat.min_eq_left (Text.le_byteSize_of_boundary h), Text.takeBytes?_of_boundary h]
  rfl

/-- A span that fits has a range, and the check finds it. -/
theorem Span.Fits.ofSpan? {file : SourceFile} {span : Span} (h : span.Fits file.content) :
    SourceRange.ofSpan? file span = some (SourceRange.ofSpan file span) := by
  rw [SourceRange.ofSpan?, Location.ofOffset?_of_boundary h.start,
    Location.ofOffset?_of_boundary h.stop]
  rfl

end Stencil
