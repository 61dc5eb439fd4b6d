import Stencil.Context.Basic
import Stencil.Expr.Grammar
import Stencil.Log
import Stencil.Loop
import Stencil.Output.Compiled
import Stencil.Output.Edit
import Stencil.Settings.Basic

/-!
# The progress of a compile

A compile is a sequence of steps. Each step may use and change the context, record edits, add to the
result and say something to the log. A step that fails ends the compile; what was done to the
context and said to the log before stays.

Two problems are fatal: an expression and a loop definition that cannot be read. All other problems
become diagnostics.
-/

namespace Stencil

/-- Why a template cannot be compiled. -/
inductive CompileError
  | expression (text : String) (cause : SyntaxError)
  | loop (error : LoopError)
  deriving DecidableEq, Repr

/-- The wording of the error. -/
def CompileError.message : CompileError → String
  | expression text cause => cause.report text
  | loop error => error.message

/-- What is compiled, and how. -/
structure Job where
  settings : Settings
  file : SourceFile

/-- How far a compile has come. -/
structure Progress where
  context : Context
  /-- The edits of the source, in the order in which they were recorded. -/
  edits : List Edit := []
  result : Compiled := {}
  log : List LogRecord := []

/-- A step of a compile. -/
abbrev Compile (α : Type) := ExceptT CompileError (StateM Progress) α

namespace Compile

/-- The context. -/
def context : Compile Context := return (← get).context

/-- Changes the context. -/
def modifyContext (f : Context → Context) : Compile Unit :=
  modify fun p => { p with context := f p.context }

/-- Says something to the log. -/
def say (level : LogLevel) (message : String) : Compile Unit :=
  modify fun p => { p with log := p.log ++ [⟨level, message⟩] }

/-- Records an edit of the source. -/
def edit (e : Edit) : Compile Unit := modify fun p => { p with edits := p.edits ++ [e] }

/-- Changes the result. -/
def modifyResult (f : Compiled → Compiled) : Compile Unit :=
  modify fun p => { p with result := f p.result }

/-- Reports a diagnostic. -/
def reportDiagnostic (d : Diagnostic) : Compile Unit := do
  say .error d.render
  modifyResult (·.addDiagnostic d)

/-- Reports a problem at a place in the source. -/
def report (job : Job) (message context : String) (span : Span) : Compile Unit :=
  reportDiagnostic { message, context, range := SourceRange.ofSpan job.file span }

/-- Runs a step in a scope of its own, which is closed again whether the step fails or not. -/
def inScope {α : Type} (step : Compile α) : Compile α := ExceptT.mk fun p =>
  let (answer, p) := step.run.run { p with context := p.context.push }
  (answer, { p with context := p.context.pop })

end Compile

/-- The source text of a span. -/
def Job.sourceText (job : Job) (span : Span) : String :=
  String.ofList (Text.slice span.start span.stop job.file.content)

end Stencil
