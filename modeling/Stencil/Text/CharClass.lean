import Stencil.Text.Alphabetic

/-!
# Character classes of the two grammars

Markup and expressions share these classes. All are decided character by character; the only one
that looks beyond ASCII for letters is the identifier class.
-/

namespace Stencil.Text

/-- A blank between tokens: space, tab, line feed, carriage return, vertical tab, form feed and the
no-break space. -/
def isBlank (c : Char) : Bool :=
  c == ' ' || c == '\t' || c == '\n' || c == '\r' || c == '\x0B' || c == '\x0C' || c == '\u00A0'

/-- An ASCII letter. -/
def isLetter (c : Char) : Bool := c.isAlpha

/-- An ASCII digit. -/
def isDigit (c : Char) : Bool := c.isDigit

/-- A hexadecimal digit, in either case. -/
def isHexDigit (c : Char) : Bool :=
  c.isDigit || ('a' ≤ c && c ≤ 'f') || ('A' ≤ c && c ≤ 'F')

/-- A quote that may stand around an attribute value. -/
def isQuote (c : Char) : Bool := c == '\'' || c == '"'

/-- A character that may start an identifier: an ASCII letter, an underscore, a dollar sign, or a
letter of any other script. -/
def isIdentifierStart (c : Char) : Bool :=
  isLetter c || c == '_' || c == '$' || (0x80 ≤ c.toNat && isAlphabetic c)

/-- A character that may continue an identifier: one that may start it, or an ASCII digit. -/
def isIdentifierPart (c : Char) : Bool := isIdentifierStart c || isDigit c

/-- A character of a tag name. -/
def isNameChar (c : Char) : Bool :=
  isLetter c || isDigit c || c == '-' || c == '_' || c == ':' || c == '.'

/-- A character that ends an attribute name inside a start tag. The null character ends one too: it
stands for the end of the input. -/
def endsAttributeName (c : Char) : Bool :=
  isBlank c || c == '=' || c == '>' || c == '/' || c == '\x00'

/-- Whether `name` is spelled like an identifier. Reserved words are spelled so as well. -/
def isIdentifier (name : List Char) : Bool :=
  match name with
  | [] => false
  | c :: cs => isIdentifierStart c && cs.all isIdentifierPart

/-- The value of a hexadecimal digit; zero for any other character. -/
def hexDigitValue (c : Char) : Nat :=
  if c.isDigit then c.toNat - '0'.toNat
  else if 'a' ≤ c && c ≤ 'f' then c.toNat - 'a'.toNat + 10
  else if 'A' ≤ c && c ≤ 'F' then c.toNat - 'A'.toNat + 10
  else 0

/-- The number spelled by hexadecimal digits. -/
def hexValue (digits : List Char) : Nat :=
  digits.foldl (fun n c => 16 * n + hexDigitValue c) 0

/-- The number spelled by decimal digits. -/
def decimalValue (digits : List Char) : Nat :=
  digits.foldl (fun n c => 10 * n + hexDigitValue c) 0

/-- The character with a given code point, if that code point is a Unicode scalar value. -/
def scalar? (n : Nat) : Option Char :=
  if n.isValidChar then some (Char.ofNat n) else none

end Stencil.Text
