import Stencil.Compile.Element
import Stencil.Markup.Tree

/-!
# Compiling a template

The whole compile: the implicit imports are made known, problems of the markup are reported, what the
template's own elements import is made known and the elements are taken out, and then the tree is
walked. The context outlives the compile, with what was imported.
-/

namespace Stencil

open Markup (Element Node)

/-- The name of a template that has none. -/
def defaultUrl : String := "template.html"

namespace Compile

/-- Reports a problem of the markup, or only logs it. -/
def reportMarkup (job : Job) (e : Markup.MarkupError) : Compile Unit :=
  let details := e.problem.element?.map fun name => s!"in <{name}>"
  let range : SourceRange := { SourceRange.ofSpan job.file e.span with details }
  if job.settings.lenientMarkup then say .warn s!"{e.problem.message}: {range.place}"
  else reportDiagnostic { message := e.problem.message, range }

/-- Makes known what an import element imports, and removes the element from the template. -/
def processImport (e : Element) : Compile Unit := do
  match e.attribute? "class" with
  | some a =>
    modifyContext (·.addImport a.value)
    say .debug s!"Imported class {Text.trimString a.value}"
  | none => pure ()
  match e.attribute? "static" with
  | some a =>
    modifyContext (·.addStaticImport a.value)
    say .debug s!"Imported static member {Text.trimString a.value}"
  | none => pure ()
  edit (.remove e.span)

/-- The import elements of a tree, parents first. -/
def importElements (settings : Settings) (nodes : List Node) : List Element :=
  ((Markup.elementsOf nodes).map (·.1)).filter (isImport settings)

/-- All steps of a compile. -/
def source (job : Job) : Compile Compiled := do
  modifyContext (job.settings.implicitImports.foldl Context.addImplicitImport)
  let tree := Markup.Tree.ofSource job.file.content
  tree.errors.forM (reportMarkup job)
  (importElements job.settings tree.nodes).forM processImport
  roots job tree.nodes
  let p ← get
  let template := String.ofList (Edit.applyAll job.file.content p.edits)
  say .debug s!"Compiled {job.file.url}: {p.result.expressions.length} expressions, {p.result.diagnostics.length} diagnostics"
  return { p.result with template }

end Compile

/-- What is left after a compile. -/
structure Outcome where
  answer : Except CompileError Compiled
  context : Context
  log : List LogRecord

/-- Compiles a template in a context. -/
def compileTemplate (settings : Settings) (url template : String) (ctx : Context) : Outcome :=
  let job : Job := ⟨settings, ⟨url, template.toList⟩⟩
  let (answer, p) := (Compile.source job).run.run { context := ctx }
  ⟨answer, p.context, p.log⟩

end Stencil
