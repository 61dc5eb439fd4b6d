import Stencil.Source.Location

/-!
# Diagnostics

A problem found in a template that does not stop the compile: what is wrong, the offending text, and
the place. All diagnostics are errors; there is no lesser tier.
-/

namespace Stencil

/-- A range of a source, with the line and column of both ends. -/
structure SourceRange where
  file : SourceFile
  start : Location
  stop : Location
  /-- What the range belongs to, as an addition to the message. -/
  details : Option String := none
  deriving DecidableEq, Repr

namespace SourceRange

/-- The range of a span. -/
def ofSpan (file : SourceFile) (span : Span) : SourceRange :=
  { file, start := .ofOffset file.content span.start, stop := .ofOffset file.content span.stop }

/-- The source text of the range. -/
def text (r : SourceRange) : List Char := Text.slice r.start.offset r.stop.offset r.file.content

/-- The place where the range starts, as it is shown. -/
def place (r : SourceRange) : String := r.start.render r.file.url

end SourceRange

/-- A problem that is reported while the compile goes on. -/
structure Diagnostic where
  message : String
  /-- The offending expression or attribute. -/
  context : Option String := none
  range : Option SourceRange := none
  deriving DecidableEq, Repr

namespace Diagnostic

/-- How many characters and lines of the source are shown on each side of a place. -/
def shownChars : Nat := 100

@[inherit_doc shownChars]
def shownLines : Nat := 3

/-- The place in its surroundings. -/
def excerpt (r : SourceRange) : String :=
  match r.start.around r.file.content shownChars shownLines with
  | some (before, after) =>
    s!" (\"{String.ofList before}[ERROR ->]{String.ofList after}\")"
  | none => ""

/-- The message with the offending text and the place in its surroundings. -/
def contextualMessage (d : Diagnostic) : String :=
  d.message
    ++ (match d.context with
      | some context => "\n\nIn expression: " ++ context
      | none => "")
    ++ (match d.range with
      | some range => excerpt range
      | none => "")

/-- The whole text of the diagnostic: the contextual message, the place and its details. -/
def render (d : Diagnostic) : String :=
  d.contextualMessage
    ++ (match d.range with
      | some range =>
        ": " ++ range.place ++ (match range.details with
          | some details => ", " ++ details
          | none => "")
      | none => "")

end Diagnostic

end Stencil
