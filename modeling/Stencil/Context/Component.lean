import Stencil.Table
import Stencil.TypeRef.Basic

/-!
# The component that owns a template

A template sees the properties and methods of its component, and those of the components it
inherits from. The chain of inheritance is kept as a list of levels, the nearest ancestor first, so
that looking up a member is going through the levels.
-/

namespace Stencil

/-- What one component declares itself. -/
structure Members where
  qualifiedName : String := ""
  properties : Table TypeRef := .empty
  methods : List String := []

/-- A component: what it declares itself and what its ancestors declare, the nearest first. -/
structure Component where
  own : Members := {}
  inherited : List Members := []

namespace Component

/-- The levels that a member is searched in, in this order. -/
def levels (c : Component) : List Members := c.own :: c.inherited

/-- The type of a property. A property hides those of the same name further up. -/
def property? (c : Component) (name : String) : Option TypeRef :=
  c.levels.findSome? fun m => m.properties.find? name

/-- Whether the component has a method, inherited or not. -/
def hasMethod (c : Component) (name : String) : Bool :=
  c.levels.any fun m => m.methods.contains name

end Component

end Stencil
