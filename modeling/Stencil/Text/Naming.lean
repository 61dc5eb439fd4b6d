import Stencil.Text.LowerCase
import Stencil.Text.Search

/-!
# Spellings of names

A component may be declared as `todoItem` and used as `todo-item`; a class may be imported as
`com.example.Todo` and used as `Todo`. The functions here go from the first spelling to the second.
-/

namespace Stencil.Text

/-- The text with a hyphen between a lower-case ASCII letter or digit and an upper-case ASCII letter
that follows it. -/
def hyphenate : List Char → List Char
  | [] => []
  | [c] => [c]
  | c :: d :: cs =>
    if (c.isLower || c.isDigit) && d.isUpper then c :: '-' :: hyphenate (d :: cs)
    else c :: hyphenate (d :: cs)

/-- The kebab-case form of a camelCase name: `myProp` becomes `my-prop`. -/
def kebabCase (name : String) : String := String.ofList (lower (hyphenate name.toList))

/-- The last segment of a dotted name: `a.b.Todo` becomes `Todo`. -/
def simpleName (name : String) : String := String.ofList (afterLast '.' name.toList)

/-- A text in lower case as far as ASCII goes. -/
def lowerAscii (s : String) : String := String.ofList (s.toList.map Char.toLower)

/-- Whether two names differ at most in the case of ASCII letters. -/
def sameIgnoringCase (a b : String) : Bool :=
  a.toList.map Char.toLower == b.toList.map Char.toLower

end Stencil.Text
