import Stencil.Compile.Template
import Stencil.Context.Json
import Stencil.Glob.Expand
import Stencil.Json.Printer
import Stencil.Json.Reader
import Stencil.Output.Json
import Stencil.Project.Discovery
import Stencil.Project.OutputFile
import Stencil.Settings.Json
import Stencil.Table

/-!
# Running the compiler on a project

A run loads the context descriptor and the settings, finds the templates, compiles each of them in a
fresh context, and hands out the results: one file for each template, or all of them as one object.
A template that cannot be compiled does not keep the others from being compiled; it has no result.
-/

namespace Stencil

/-- What a run is to do. -/
structure RunOptions where
  /-- The file of the context descriptor. -/
  context : String
  /-- The file of the settings, if they are not the default ones. -/
  settings : Option String := none
  /-- The directory for the results, if they are to be written to files. -/
  output : Option String := none
  /-- The paths of the templates, or patterns for them. -/
  templates : List String := []
  deriving DecidableEq, Repr

/-- What became of a template. -/
structure TemplateOutcome where
  path : String
  result : Except TemplateError Compiled

/-- Whether the template was compiled without any problem. -/
def TemplateOutcome.isSuccess (o : TemplateOutcome) : Bool :=
  match o.result with
  | .ok compiled => !compiled.hasErrors
  | .error _ => false

/-- What became of the templates of a run, and the text of the results, unless they are in files. -/
structure RunSummary where
  outcomes : List TemplateOutcome
  printed : String := ""

namespace RunSummary

/-- The number of templates with a problem. -/
def failures (s : RunSummary) : Nat := (s.outcomes.filter fun o => !o.isSuccess).length

/-- The exit code of a run that did not end early. -/
def exitCode (s : RunSummary) : Nat := if s.failures = 0 then 0 else 1

end RunSummary

/-- A step of a run. What was said to the log before a step fails is kept. -/
abbrev Run (m : Type → Type) := ExceptT RunError (StateT (List LogRecord) m)

namespace Run

variable {m : Type → Type} [Monad m]

/-- Says something to the log. -/
def say (level : LogLevel) (message : String) : Run m Unit := modify (· ++ [⟨level, message⟩])

/-- An operation on files as a step. -/
def ask {α : Type} (operation : m α) : Run m α := ExceptT.lift (StateT.lift operation)

/-- Loads a context descriptor. -/
def loadDescriptor (fs : FileSystem m) (path : String) : Run m ContextDescriptor := do
  match ← ask (fs.readText path) with
  | .error fault => throw (.descriptorUnreadable path fault)
  | .ok text =>
    match (Json.read? text).bind ContextDescriptor.ofJson? with
    | some descriptor => return descriptor
    | none => throw (.descriptorMalformed path)

/-- Loads settings. -/
def loadSettings (fs : FileSystem m) (path : String) : Run m Settings := do
  match ← ask (fs.readText path) with
  | .error fault => throw (.settingsUnreadable path fault)
  | .ok text =>
    match (Json.read? text).bind Settings.ofJson? with
    | some settings => return settings
    | none => throw (.settingsMalformed path)

/-- Compiles the template in a file. -/
def compileFile (fs : FileSystem m) (descriptor : ContextDescriptor) (settings : Settings)
    (path : String) : Run m TemplateOutcome := do
  match ← ask (fs.readText path) with
  | .error fault => return ⟨path, .error (.unreadable path fault)⟩
  | .ok template =>
    let outcome := compileTemplate settings path template descriptor.toContext
    modify (· ++ outcome.log)
    return ⟨path, outcome.answer.mapError .compile⟩

/-- The results of the templates that have one. -/
def results (outcomes : List TemplateOutcome) : List (String × Compiled) :=
  outcomes.filterMap fun o =>
    match o.result with
    | .ok compiled => some (o.path, compiled)
    | .error _ => none

/-- Writes a result to a file in the output directory. -/
def writeResult (fs : FileSystem m) (directory file : String) (compiled : Compiled) : Run m Unit := do
  let target := Path.join directory file
  let parent := Path.directory target
  if !(← ask (fs.createDirectories parent)) then throw (.directoryNotMade parent)
  if !(← ask (fs.write target compiled.toJson.pretty)) then throw (.fileNotWritten target)
  say .debug s!"Wrote {target}"

/-- Writes the results to files, none of them if two templates would share a file. -/
def writeResults (fs : FileSystem m) (directory : String) (results : List (String × Compiled)) :
    Run m Unit := do
  let files ← ExceptT.mk (pure (OutputFile.ofTemplates (results.map (·.1))))
  (files.zip results).forM fun (file, _, compiled) => writeResult fs directory file compiled

/-- The results as one object, each under the path of its template. -/
def printResults (results : List (String × Compiled)) : String :=
  (Json.object (Table.ofList (results.map fun (path, c) => (path, c.toJson))).entries).pretty ++ "\n"

/-- All steps of a run. -/
def perform (fs : FileSystem m) (options : RunOptions) : Run m RunSummary := do
  let descriptor ← loadDescriptor fs options.context
  let settings ← match options.settings with
    | some path => loadSettings fs path
    | none => pure {}
  let templates ← match ← ask (discover fs (Glob.expansion? fs) options.templates) with
    | .ok templates => pure templates
    | .error error => throw error
  say .info s!"Compiling {templates.length} templates"
  let outcomes ← templates.mapM (compileFile fs descriptor settings)
  outcomes.forM fun o =>
    match o.result with
    | .error error => say .error s!"{o.path}: {error.message}"
    | .ok _ => pure ()
  match options.output with
  | some directory =>
    writeResults fs directory (results outcomes)
    return { outcomes }
  | none => return { outcomes, printed := printResults (results outcomes) }

end Run

/-- Runs the compiler on a project. Returns the summary, unless the run ends early, and the log. -/
def runProject {m : Type → Type} [Monad m] (fs : FileSystem m) (options : RunOptions) :
    m (Except RunError RunSummary × List LogRecord) :=
  (ExceptT.run (Run.perform fs options)).run []

end Stencil
