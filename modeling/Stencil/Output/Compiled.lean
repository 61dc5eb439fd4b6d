import Stencil.Binding
import Stencil.Context.Variable
import Stencil.Source.Diagnostic
import Stencil.Text.Search

/-!
# Compiled templates

What a compile produces: the processed template, the expressions that were taken out of it, in the
order in which they were met, the bindings that were left as they are, and the diagnostics.

In the processed template every expression is a call of generated code. Its arguments are the
captured variables of the expression, each once.
-/

namespace Stencil

/-- A parameter of generated code. -/
structure Parameter where
  name : String
  type : TypeRef
  deriving DecidableEq, Repr

/-- The parameters for a list of variables: one for each name, the first variable of the name giving
the type. -/
def Parameter.ofVariables : List Variable → List Parameter
  | [] => []
  | v :: vs => ⟨v.name, v.type⟩ :: (ofVariables vs).filter fun p => p.name != v.name

/-- An expression that was taken out of a template. -/
structure TemplateExpression where
  id : String
  /-- The resolved expression. -/
  text : String
  returnType : TypeRef
  /-- Whether the value is passed to a prop of a child component. -/
  isPropBound : Bool
  kind : BindingKind
  parameters : List Parameter
  deriving DecidableEq, Repr

/-- The call that stands in the template for the expression. -/
def TemplateExpression.call (e : TemplateExpression) : String :=
  e.id ++ "(" ++ Text.joinWith ", " (e.parameters.map (·.name)) ++ ")"

/-- A binding that was left as it is. -/
structure PassThrough where
  text : String
  kind : BindingKind
  deriving DecidableEq, Repr

/-- A compiled template. -/
structure Compiled where
  template : String := ""
  expressions : List TemplateExpression := []
  passThroughs : List PassThrough := []
  diagnostics : List Diagnostic := []
  deriving DecidableEq, Repr

namespace Compiled

/-- The next expression; `idPrefix` and the number of expressions so far are its name. -/
def nextExpression (c : Compiled) (idPrefix text : String) (returnType : TypeRef)
    (isPropBound : Bool) (kind : BindingKind) (captured : List Variable) : TemplateExpression :=
  { id := idPrefix ++ toString c.expressions.length
    text, returnType, isPropBound, kind
    parameters := Parameter.ofVariables captured }

/-- Adds an expression. -/
def addExpression (c : Compiled) (e : TemplateExpression) : Compiled :=
  { c with expressions := c.expressions ++ [e] }

/-- Adds a binding that was left as it is. -/
def addPassThrough (c : Compiled) (p : PassThrough) : Compiled :=
  { c with passThroughs := c.passThroughs ++ [p] }

/-- Adds a diagnostic. -/
def addDiagnostic (c : Compiled) (d : Diagnostic) : Compiled :=
  { c with diagnostics := c.diagnostics ++ [d] }

/-- Whether anything was reported. -/
def hasErrors (c : Compiled) : Bool := !c.diagnostics.isEmpty

end Compiled

end Stencil
