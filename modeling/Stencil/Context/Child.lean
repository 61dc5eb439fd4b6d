import Stencil.Table
import Stencil.Text.Naming
import Stencil.TypeRef.Basic

/-!
# Child components

A template may use other components as tags. Such a component declares the props that it takes; a
prop is passed by an attribute, plain or bound.

Tags are matched without regard to case. A component whose tag is in camel case can also be used by
the kebab-case form of its tag.
-/

namespace Stencil

/-- A prop that a child component takes. -/
structure DeclaredProp where
  name : String
  /-- The attribute that passes the prop, if it is not named after the prop. -/
  attributeName? : Option String := none
  type : TypeRef
  required : Bool := false
  deriving DecidableEq, Repr

/-- The attribute that passes the prop. -/
def DeclaredProp.attributeName (p : DeclaredProp) : String :=
  p.attributeName?.getD (Text.kebabCase p.name)

/-- A component that can be used as a tag. -/
structure ChildComponent where
  tagName : String
  props : List DeclaredProp := []
  acceptsChildren : Bool := true
  deriving DecidableEq, Repr

namespace ChildComponent

/-- The marks of a bound attribute. -/
def bindMarks : List String := ["v-bind:", ":"]

/-- The name without the first of the marks that it starts with. -/
def dropMark (name : String) : List String → String
  | [] => name
  | mark :: marks =>
    if mark.toList.isPrefixOf name.toList then String.ofList (name.toList.drop mark.length)
    else dropMark name marks

/-- The prop that an attribute passes, the first of several. -/
def propOf? (c : ChildComponent) (attributeName : String) : Option DeclaredProp :=
  let name := dropMark (Text.lowerString attributeName) bindMarks
  c.props.find? fun p => Text.lowerString p.attributeName == name

/-- The props that every use must pass. -/
def requiredProps (c : ChildComponent) : List DeclaredProp := c.props.filter (·.required)

end ChildComponent

/-- Child components by the tags that they can be used by. -/
abbrev ChildTable := Table ChildComponent

namespace ChildTable

/-- Makes a component usable by its tag and by the kebab-case form of it. -/
def add (t : ChildTable) (c : ChildComponent) : ChildTable :=
  let kebab := Text.kebabCase c.tagName
  let lower := Text.lowerString c.tagName
  let t := if kebab = lower then t else t.insert kebab c
  t.insert lower c

/-- The component that a tag stands for. -/
def component? (t : ChildTable) (tagName : String) : Option ChildComponent :=
  t.find? (Text.lowerString tagName)

end ChildTable

end Stencil
