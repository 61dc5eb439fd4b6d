import Stencil.Context.Basic
import Stencil.Expr.Basic

/-!
# Resolving the names of an expression

An expression of a template is put into a form that makes sense outside of the template: types,
classes and static members are written with their qualified names, and the variables that are no
members of the component become parameters. What cannot be resolved is a problem; a resolution with
problems is of no use but to report them.

The event parameter is known by its name, at every site: resolution does not look at the kind of site
that the expression comes from, so outside of an event binding the name is a parameter too. Its type
comes only from a cast that stands directly in front of it; the name without such a cast is a problem.
-/

namespace Stencil

/-- What is wrong with a name or call in an expression. -/
inductive ResolutionProblem
  | unknownMethod (name : String)
  | unknownName (name : String)
  | uncastEvent (name : String)
  deriving DecidableEq, Repr

/-- The wording of the problem. -/
def ResolutionProblem.message : ResolutionProblem → String
  | unknownMethod name =>
    s!"Couldn't find the method \"{name}\". Make sure it is not private."
  | unknownName name =>
    s!"Couldn't find variable/method \"{name}\". Make sure you didn't forget the @JsProperty/@JsMethod annotation."
  | uncastEvent name =>
    s!"\"{name}\" should always be casted to it's intended type. Example: @click=\"doSomething((NativeEvent) {name})\"."

namespace Expr

/-- The names of the calls without a scope, outer calls first. -/
def unscopedCalls (e : Expr) : List String :=
  (e.nodes 0).filterMap fun
    | (_, .call _ n _) => some n
    | _ => none

/-- A bare name in an expression, and the type of the cast that stands directly in front of it. -/
structure BareName where
  name : String
  castTo : Option TypeRef := none
  deriving DecidableEq, Repr

mutual

/-- The bare names of an expression, in the order of the text. `castTo` is the type of the cast
directly in front of the expression. -/
def bareNames (castTo : Option TypeRef) : Expr → List BareName
  | name _ n => [⟨n, castTo⟩]
  | literal .. | this _ | classLiteral .. => []
  | field _ scope _ => scope.bareNames none
  | call _ _ args => bareNamesOfList args
  | method _ scope _ args => scope.bareNames none ++ bareNamesOfList args
  | index _ array position => array.bareNames none ++ position.bareNames none
  | creation _ _ args => bareNamesOfList args
  | cast _ type operand => operand.bareNames (some type)
  | instanceOf _ operand _ => operand.bareNames none
  | unary _ _ operand => operand.bareNames none
  | binary _ _ left right => left.bareNames none ++ right.bareNames none
  | conditional _ condition whenTrue whenFalse =>
    condition.bareNames none ++ whenTrue.bareNames none ++ whenFalse.bareNames none
  | assign _ _ target value => target.bareNames none ++ value.bareNames none
  | enclosed _ inner => inner.bareNames none

/-- The bare names of several expressions. -/
def bareNamesOfList : List Expr → List BareName
  | [] => []
  | e :: es => e.bareNames none ++ bareNamesOfList es

end

end Expr

/-! ## What a name stands for -/

namespace Context

/-- What a bare name stands for. -/
inductive Referent
  /-- A class, by its qualified name. -/
  | classRef (qualified : String)
  /-- A member of the component. -/
  | member (v : Variable)
  /-- A variable that is passed as an argument. -/
  | parameter (v : Variable)
  | unresolved (problem : ResolutionProblem)
  deriving DecidableEq, Repr

/-- What a bare name stands for. The event parameter hides classes, and those hide variables. -/
def referent (ctx : Context) (event : String) (use : Expr.BareName) : Referent :=
  if use.name = event then
    match use.castTo with
    | some type => .parameter ⟨event, type, .eventParameter⟩
    | none => .unresolved (.uncastEvent event)
  else if ctx.imports.knows use.name then .classRef (ctx.imports.qualifyClass use.name)
  else
    match ctx.find? use.name with
    | some v => if v.isCaptured then .parameter v else .member v
    | none => .unresolved (.unknownName use.name)

/-- The problem with a call without a scope, if there is one. -/
def callProblem? (ctx : Context) (name : String) : Option ResolutionProblem :=
  if ctx.component.hasMethod name || ctx.staticImports.knows name then none
  else some (.unknownMethod name)

/-- The name that a call without a scope is written with. -/
def callName (ctx : Context) (name : String) : String :=
  if ctx.staticImports.knows name then ctx.staticImports.qualifyMember name else name

/-- What a bare name is written with. -/
def writtenName (ctx : Context) (event name : String) : String :=
  match ctx.referent event ⟨name, none⟩ with
  | .classRef qualified => qualified
  | _ => name

end Context

/-! ## Resolution -/

/-- A resolved expression. -/
structure Resolution where
  /-- The expression, with qualified names. -/
  expression : Expr
  /-- The variables that are passed as arguments, one for each use. -/
  parameters : List Variable
  /-- The type of the leading cast, if the expression was freed of one. -/
  castType : Option TypeRef
  /-- First those of calls, then those of names. -/
  problems : List ResolutionProblem
  deriving Repr

/-- Resolves an expression; `event` is the name of the event parameter. With `extractCast`, a leading
cast is taken off. -/
def Context.resolve (ctx : Context) (event : String) (extractCast : Bool) (e : Expr) : Resolution :=
  let renamed := e.rename ctx.qualify (ctx.writtenName event) ctx.callName
  let referents := ((e.rename ctx.qualify id id).bareNames none).map (ctx.referent event)
  let (expression, castType) := if extractCast then renamed.takeLeadingCast else (renamed, none)
  { expression
    parameters := referents.filterMap fun
      | .parameter v => some v
      | _ => none
    castType
    problems := e.unscopedCalls.filterMap ctx.callProblem? ++ referents.filterMap fun
      | .unresolved problem => some problem
      | _ => none }

end Stencil
