import Stencil.Text.CharClass

/-!
# Character references

`&lt;`, `&#60;` and `&#x3c;` all stand for `<`. A reference that names no character stands for
itself, as does an ampersand that starts no reference.
-/

namespace Stencil.Markup

/-- The references by name. -/
def namedReferences : List (String × Char) :=
  [("amp", '&'), ("lt", '<'), ("gt", '>'), ("quot", '"'), ("apos", '\''), ("nbsp", '\u00A0')]

/-- The run of characters of a class up to a semicolon, if the run is not empty. -/
def runBeforeSemicolon? (inRun : Char → Bool) (cs : List Char) : Option (List Char) :=
  match cs.takeWhile inRun, cs.dropWhile inRun with
  | c :: run, ';' :: _ => some (c :: run)
  | _, _ => none

/-- The reference that stands behind an ampersand: the number of its characters, the semicolon
included, and what it stands for. -/
def reference? : List Char → Option (Nat × Char)
  | '#' :: x :: rest =>
    if x = 'x' || x = 'X' then do
      let digits ← runBeforeSemicolon? Text.isHexDigit rest
      return (digits.length + 3, ← Text.scalar? (Text.hexValue digits))
    else do
      let digits ← runBeforeSemicolon? Text.isDigit (x :: rest)
      return (digits.length + 2, ← Text.scalar? (Text.decimalValue digits))
  | c :: rest =>
    if Text.isLetter c then do
      let name ← runBeforeSemicolon? (fun d => Text.isLetter d || Text.isDigit d) (c :: rest)
      let entry ← namedReferences.find? fun entry => entry.1.toList == name
      return (name.length + 1, entry.2)
    else none
  | [] => none

/-- The text without its first `skip` characters, the references in it replaced. -/
def decodeFrom : (skip : Nat) → List Char → List Char
  | _, [] => []
  | skip + 1, _ :: cs => decodeFrom skip cs
  | 0, c :: cs =>
    if c = '&' then
      match reference? cs with
      | some (length, decoded) => decoded :: decodeFrom length cs
      | none => c :: decodeFrom 0 cs
    else c :: decodeFrom 0 cs

/-- The text with its references replaced by what they stand for. -/
def decodeReferences (cs : List Char) : List Char := decodeFrom 0 cs

end Stencil.Markup
