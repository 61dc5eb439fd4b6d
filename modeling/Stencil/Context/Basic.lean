import Stencil.Context.Child
import Stencil.Context.Component
import Stencil.Context.Imports
import Stencil.Context.Variable

/-!
# The context of a template

Everything that a name in a template can refer to: the variables of the enclosing loops, the members
of the component, the imported classes and static members, and the child components.

Scopes are searched from the innermost to the root; after them come the properties of the component
and then its methods. The root scope is always there.
-/

namespace Stencil

/-- What a template can refer to. -/
structure Context where
  component : Component := {}
  /-- The scopes inside of the root scope, the innermost first. -/
  inner : List Scope := []
  root : Scope := []
  imports : Imports := {}
  staticImports : Imports := {}
  children : ChildTable := .empty

namespace Context

/-- All scopes, the innermost first. -/
def scopes (ctx : Context) : List Scope := ctx.inner ++ [ctx.root]

/-- The number of scopes. -/
def depth (ctx : Context) : Nat := ctx.scopes.length

/-- Opens a scope. -/
def push (ctx : Context) : Context := { ctx with inner := [] :: ctx.inner }

/-- Closes the innermost scope, unless it is the root. -/
def pop (ctx : Context) : Context := { ctx with inner := ctx.inner.tail }

/-- Declares a variable in the innermost scope. -/
def declare (ctx : Context) (v : Variable) : Context :=
  match ctx.inner with
  | [] => { ctx with root := v :: ctx.root }
  | scope :: scopes => { ctx with inner := (v :: scope) :: scopes }

/-- Declares several variables, one after the other. -/
def declareAll (ctx : Context) (vs : List Variable) : Context := vs.foldl declare ctx

/-- The variable or member that a name stands for. -/
def find? (ctx : Context) (name : String) : Option Variable :=
  match ctx.scopes.findSome? (·.find? name) with
  | some v => some v
  | none =>
    match ctx.component.property? name with
    | some type => some ⟨name, type, .property⟩
    | none => if ctx.component.hasMethod name then some ⟨name, .dynamic, .method⟩ else none

/-- The type with its class names qualified by the imports. -/
def qualify (ctx : Context) (type : TypeRef) : TypeRef := type.mapNames ctx.imports.qualifyClass

/-- Imports a class. -/
def addImport (ctx : Context) (qualified : String) : Context :=
  { ctx with imports := ctx.imports.add qualified }

/-- Imports a class unless its simple name is taken. -/
def addImplicitImport (ctx : Context) (qualified : String) : Context :=
  { ctx with imports := ctx.imports.addImplicit qualified }

/-- Imports a static member. -/
def addStaticImport (ctx : Context) (qualified : String) : Context :=
  { ctx with staticImports := ctx.staticImports.add qualified }

/-- Makes a child component usable. -/
def addChild (ctx : Context) (c : ChildComponent) : Context :=
  { ctx with children := ctx.children.add c }

@[simp] theorem inner_push (ctx : Context) : ctx.push.inner = [] :: ctx.inner := rfl

@[simp] theorem pop_push (ctx : Context) : ctx.push.pop = ctx := rfl

end Context

end Stencil
