import Stencil.Compile.Progress
import Stencil.Expr.Printer
import Stencil.Resolution

/-!
# Compiling one binding

A binding site is left as it is when its text is empty, names nothing but a variable or a method, or
has a problem that is reported; otherwise its expression is resolved, added to the result, and
called in its place. Each function here returns the text that the site is to hold.
-/

namespace Stencil

namespace BindingSite

/-- What is said about a site without an expression, if anything is. -/
def emptyMessage? (site : BindingSite) : Option String :=
  match site.attributeKind? with
  | some .propertyBinding =>
    some "Empty expression in template property binding. If you want to pass an empty string then simply don't use binding: my-attribute=\"\""
  | some .event => some "Empty expression in template event binding."
  | some .conditional => some "Empty expression in template conditional directive."
  | some kind => if kind.requiresExpression then some "Empty expression in template binding." else none
  | none => some "Empty expression in template interpolation."

end BindingSite

/-- What is said about an object literal. -/
def objectLiteralMessage : String :=
  "Object literal syntax are not supported yet in Vue GWT, please use map(e(\"key1\", myValue), e(\"key2\", myValue2 > 5)...) instead. The object returned by map() is a regular Javascript Object (JsObject) with the given key/values."

/-- What is said about an array literal. -/
def arrayLiteralMessage : String :=
  "Array literal syntax are not supported yet in Vue GWT, please use array(myValue, myValue2 > 5...) instead. The object returned by array() is a regular Javascript Array (JsArray) with the given values."

/-- The text without `()` at its end, if it ends so. -/
def methodName (text : String) : String :=
  let cs := text.toList
  if ['(', ')'].isSuffixOf cs then String.ofList (cs.take (cs.length - 2)) else text

namespace Context

/-- Whether the text is just the name of a variable, or that of a method, called without arguments
or not. -/
def isSimple (ctx : Context) (text : String) : Bool :=
  ctx.component.hasMethod (methodName text) || (ctx.find? text).isSome

/-- Whether the text of a site can stay as it is. A prop and a text need a conversion that only
generated code makes. -/
def passesThrough (ctx : Context) (settings : Settings) (site : BindingSite) (text : String) : Bool :=
  settings.optimizeSimpleBindings && site.prop?.isNone && !site.expectedType.isString
    && text != settings.eventParameter && ctx.isSimple text

end Context

namespace Compile

/-- Compiles the expression at a site. -/
def expr (job : Job) (site : BindingSite) (text : String) (e : Expr) : Compile String := do
  let resolution := (← context).resolve job.settings.eventParameter site.prop?.isNone e
  if resolution.problems.isEmpty then
    let expression := (← get).result.nextExpression job.settings.expressionPrefix
      resolution.expression.print (resolution.castType.getD site.expectedType) site.prop?.isSome
      site.kind resolution.parameters
    modifyResult (·.addExpression expression)
    say .debug s!"Added expression {expression.id}: {expression.text} -> {expression.returnType.print}"
    return expression.call
  else
    for problem in resolution.problems do
      report job problem.message text site.span
    return text

/-- Compiles the trimmed text at a site, which is neither empty nor passed through. -/
def exprText (job : Job) (site : BindingSite) (text : String) : Compile String := do
  match Expr.parse text with
  | .ok e => expr job site text e
  | .error cause =>
    let place := (SourceRange.ofSpan job.file site.span).place
    say .error s!"{cause.report text}: {place}"
    throw (.expression text cause)

/-- Compiles the text at a site. -/
def site (job : Job) (site : BindingSite) (written : String) : Compile String := do
  let text := Text.trimString written
  match text.toList with
  | [] =>
    match site.emptyMessage? with
    | some message => report job message (job.sourceText site.span) site.span
    | none => pure ()
    return ""
  | '\x7b' :: _ =>
    report job objectLiteralMessage text site.span
    return text
  | '[' :: _ =>
    report job arrayLiteralMessage text site.span
    return text
  | _ =>
    if (← context).passesThrough job.settings site text then
      say .debug s!"Passing \"{text}\" through unprocessed"
      modifyResult (·.addPassThrough ⟨text, site.kind⟩)
      return text
    else exprText job site text

end Compile

end Stencil
