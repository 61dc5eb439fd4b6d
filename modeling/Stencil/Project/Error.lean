import Stencil.Compile.Progress
import Stencil.File.System

/-!
# What can go wrong with a project

Errors that end a run, and errors that end the compile of one template while the others go on.
-/

namespace Stencil

/-- The wording for a file that cannot be read. -/
def unreadableMessage (path : String) (fault : ReadFault) : String :=
  s!"Couldn't read {path}: {fault.message}"

/-- Why a template has no result. -/
inductive TemplateError
  | unreadable (path : String) (fault : ReadFault)
  | compile (error : CompileError)
  deriving DecidableEq, Repr

/-- The wording of the error. -/
def TemplateError.message : TemplateError → String
  | unreadable path fault => unreadableMessage path fault
  | compile error => error.message

/-- Why a run ends early. -/
inductive RunError
  | descriptorUnreadable (path : String) (fault : ReadFault)
  | descriptorMalformed (path : String)
  | settingsUnreadable (path : String) (fault : ReadFault)
  | settingsMalformed (path : String)
  | malformedPattern (pattern : String)
  | noMatch (pattern : String)
  | sharedOutput (first second output : String)
  | directoryNotMade (path : String)
  | fileNotWritten (path : String)
  deriving DecidableEq, Repr

namespace RunError

/-- The wording of the error. -/
def message : RunError → String
  | descriptorUnreadable path _ => s!"Failed to read context descriptor {path}"
  | descriptorMalformed path => s!"Failed to parse context descriptor {path}"
  | settingsUnreadable path fault => unreadableMessage path fault
  | settingsMalformed path => s!"Invalid configuration in {path}: the keys or values are not those of a configuration"
  | malformedPattern pattern => s!"Invalid glob pattern '{pattern}'"
  | noMatch pattern => s!"No template matches '{pattern}'"
  | sharedOutput first second output =>
    s!"{first} and {second} would both be written to {output}"
  | directoryNotMade path => s!"Failed to create {path}"
  | fileNotWritten path => s!"Failed to write {path}"

/-- The wording of what caused the error, if there is a cause to tell. -/
def cause? : RunError → Option String
  | descriptorUnreadable _ fault | settingsUnreadable _ fault => some fault.message
  | _ => none

/-- The wording of the error and its cause. -/
def report (e : RunError) : String :=
  match e.cause? with
  | some cause => e.message ++ ": " ++ cause
  | none => e.message

end RunError

end Stencil
