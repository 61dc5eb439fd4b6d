import Stencil.Source.Span
import Stencil.Text.Bytes

/-!
# Locations in a source

A location is a byte offset together with its line and column, both counted from zero. Only a line
feed ends a line, and a column counts characters, not bytes. `window` cuts out what surrounds a
location, for a message that shows the place it speaks of.
-/

namespace Stencil

/-- A source text and the name it goes by in messages. -/
structure SourceFile where
  url : String
  content : List Char
  deriving DecidableEq, Repr

/-- A byte offset with its line and column. -/
structure Location where
  offset : Nat
  line : Nat
  column : Nat
  deriving DecidableEq, Repr

namespace Location

/-- The start of a source. -/
def origin : Location := ⟨0, 0, 0⟩

/-- The location after the character `c`, read at this location. -/
def step (l : Location) (c : Char) : Location :=
  if c = '\n' then ⟨l.offset + c.utf8Size, l.line + 1, 0⟩
  else ⟨l.offset + c.utf8Size, l.line, l.column + 1⟩

/-- The location of a byte offset. An offset past the end stands for the end. -/
def ofOffset (source : List Char) (offset : Nat) : Location :=
  (Text.takeBytes offset source).foldl step origin

/-- The location as it is shown: the name of the source, the line and the column. -/
def render (url : String) (l : Location) : String :=
  s!"{url}@{l.line}:{l.column}"

end Location

/-- The longest front of the text with at most `chars` characters and fewer than `lines` line feeds,
or none at all if `lines` is zero. -/
def window : (chars lines : Nat) → List Char → List Char
  | 0, _, _ => []
  | _ + 1, _, [] => []
  | chars + 1, lines, c :: cs =>
    if c = '\n' then
      if lines ≤ 1 then [] else c :: window chars (lines - 1) cs
    else c :: window chars lines cs

/-- What stands before and after a location, each side limited to `chars` characters and `lines`
lines. An empty source has no surroundings. -/
def Location.around (source : List Char) (l : Location) (chars lines : Nat) :
    Option (List Char × List Char) :=
  if source.isEmpty then none
  else
    some ((window chars lines (Text.takeBytes l.offset source).reverse).reverse,
      window chars lines (Text.dropBytes l.offset source))

end Stencil
