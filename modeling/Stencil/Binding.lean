import Stencil.Context.Child
import Stencil.Source.Span

/-!
# Binding sites

A binding site is a place in a template that holds an expression. The name of an attribute says
whether its value is one, and of what kind; case does not count. From the kind follows what is
expected of the value.
-/

namespace Stencil

/-- What an expression is there for. -/
inductive BindingKind
  | interpolation
  | event
  | conditional
  | attributeBinding
  | loopIterable
  deriving DecidableEq, Repr

/-- The name of the kind in a written result. -/
def BindingKind.text : BindingKind → String
  | .interpolation => "interpolation"
  | .event => "event"
  | .conditional => "conditional"
  | .attributeBinding => "attributeBinding"
  | .loopIterable => "loopIterable"

/-- What an attribute is, as far as its name tells. -/
inductive AttributeKind
  /-- The definition of a loop. -/
  | loop
  /-- A two-way binding, which is not compiled. -/
  | model
  | event
  | propertyBinding
  | conditional
  /-- Any other directive; its value may be empty. -/
  | directive
  | plain
  deriving DecidableEq, Repr

namespace AttributeKind

/-- The attributes that make the presence of an element conditional. -/
def conditionals : List String := ["v-if", "v-else-if", "v-show"]

/-- The kind of the attribute with the given lower-case name. -/
def ofLower (name : String) : AttributeKind :=
  let startsWith (mark : String) : Bool := mark.toList.isPrefixOf name.toList
  if name = "v-for" then .loop
  else if name = "v-model" || startsWith "v-model." || startsWith "v-model:" then .model
  else if startsWith "@" || startsWith "v-on:" then .event
  else if startsWith ":" || startsWith "v-bind:" then .propertyBinding
  else if conditionals.contains name then .conditional
  else if startsWith "v-" then .directive
  else .plain

/-- The kind of the attribute with the given name. -/
def ofName (name : String) : AttributeKind := ofLower (Text.lowerString name)

/-- What the expression in such an attribute is there for. -/
def bindingKind : AttributeKind → BindingKind
  | event => .event
  | conditional => .conditional
  | loop => .loopIterable
  | model | propertyBinding | directive | plain => .attributeBinding

/-- Whether an empty value is an error. -/
def requiresExpression : AttributeKind → Bool
  | directive | plain | model => false
  | loop | event | propertyBinding | conditional => true

/-- The type that the value should have: nothing for an event, a truth value for a condition, else
the type of the prop that the attribute passes. -/
def expectedType (kind : AttributeKind) (prop : Option DeclaredProp) : TypeRef :=
  match kind with
  | event => .void
  | conditional => .boolean
  | loop | model | propertyBinding | directive | plain => (prop.map (·.type)).getD .dynamic

end AttributeKind

/-- A place in a template that holds an expression. -/
structure BindingSite where
  /-- The kind of the attribute whose value the expression is; none for an interpolation. -/
  attributeKind? : Option AttributeKind
  /-- The prop that the value is passed to. -/
  prop? : Option DeclaredProp
  /-- The type of the value, unless the expression says otherwise. -/
  expectedType : TypeRef
  /-- Where the expression stands in the template. -/
  span : Span
  deriving DecidableEq, Repr

/-- What the expression is there for. -/
def BindingSite.kind (site : BindingSite) : BindingKind :=
  match site.attributeKind? with
  | some kind => kind.bindingKind
  | none => .interpolation

end Stencil
