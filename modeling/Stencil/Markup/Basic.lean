import Stencil.Source.Span
import Stencil.Text.Naming

/-!
# The element tree of a template

Elements, texts and comments, each with the span it was read from. The walk over a template edits
the source in place, so spans, not only values, are what the tree is for.
-/

namespace Stencil.Markup

/-- An attribute of a start tag. -/
structure Attribute where
  /-- The name as written. -/
  name : String
  /-- The value with its character references replaced; empty when there is none. -/
  value : String
  span : Span
  /-- The span of the value as written, without quotes. -/
  valueSpan : Option Span
  /-- The quote around the value, if there is one. -/
  quote : Option Char
  deriving DecidableEq, Repr

/-- An element apart from its contents. -/
structure Element where
  name : String
  attributes : List Attribute
  /-- From the start tag to the end tag, or to where the contents end when there is no end tag. -/
  span : Span
  /-- The span of the start tag. -/
  startSpan : Span
  /-- The span of the end tag. -/
  endSpan : Option Span
  deriving DecidableEq, Repr

/-- The first attribute with the given name, in any case of its ASCII letters. -/
def Element.attribute? (e : Element) (name : String) : Option Attribute :=
  e.attributes.find? fun a => Text.sameIgnoringCase a.name name

/-- A node of the tree. -/
inductive Node
  | text (value : String) (span : Span)
  | comment (value : String) (span : Span)
  | element (element : Element) (children : List Node)
  deriving Repr, Inhabited

mutual

/-- The elements of a node and below it, parents first, with their children. -/
def Node.elements : Node → List (Element × List Node)
  | .element e children => (e, children) :: elementsOf children
  | .text .. | .comment .. => []

/-- The elements of a forest, parents first, with their children. -/
def elementsOf : List Node → List (Element × List Node)
  | [] => []
  | node :: nodes => node.elements ++ elementsOf nodes

end

/-- The elements among the nodes, with their children. -/
def childElements (nodes : List Node) : List (Element × List Node) :=
  nodes.filterMap fun
    | .element e children => some (e, children)
    | _ => none

/-- The texts among the nodes. -/
def childTexts (nodes : List Node) : List (String × Span) :=
  nodes.filterMap fun
    | .text value span => some (value, span)
    | _ => none

/-- What is wrong with the markup of a template. -/
inductive Problem
  | unterminatedComment
  | unterminatedTag (name : String)
  | unterminatedValue (name : String)
  | unexpectedEndTag (name : String)
  deriving DecidableEq, Repr

namespace Problem

/-- The wording of the problem. -/
def message : Problem → String
  | unterminatedComment => "Unterminated comment"
  | unterminatedTag name => s!"Unterminated start tag <{name}>"
  | unterminatedValue name => s!"Unterminated value of attribute \"{name}\""
  | unexpectedEndTag name => s!"Unexpected closing tag \"{name}\""

/-- The element the problem belongs to. -/
def element? : Problem → Option String
  | unterminatedTag name | unexpectedEndTag name => some name
  | unterminatedComment | unterminatedValue _ => none

end Problem

/-- A problem and where it lies. -/
structure MarkupError where
  problem : Problem
  span : Span
  deriving DecidableEq, Repr

/-- A tree and the problems met while reading it. Markup never fails to be read. -/
structure Tree where
  nodes : List Node
  errors : List MarkupError
  deriving Repr, Inhabited

end Stencil.Markup
