import Stencil.File.Path
import Stencil.Project.Error

/-!
# Finding the templates of a run

An argument that is the path of a file names that file. Any other argument is a pattern, and names
the files that match it and were not named before. A pattern must add at least one file.

How patterns are expanded is a parameter, as the file system is.
-/

namespace Stencil

/-- What an argument turns out to be. -/
inductive Argument
  /-- The path of a file. -/
  | file
  | malformed
  /-- A pattern, and the files that match it. -/
  | pattern (files : List String)
  deriving DecidableEq, Repr

namespace Argument

/-- The paths with those added that are not among them yet. -/
def addNew (files found : List String) : List String :=
  found.foldl (fun files file => if files.any (Path.same file) then files else files ++ [file]) files

/-- The files named so far with those added that the argument `text` names. -/
def addTo (files : List String) (text : String) : Argument → Except RunError (List String)
  | file => .ok (files ++ [text])
  | malformed => .error (.malformedPattern text)
  | pattern found =>
    let all := addNew files found
    if all.length = files.length then .error (.noMatch text) else .ok all

/-- The files that the arguments name, in the order of first mention. -/
def filesOf (files : List String) : List (String × Argument) → Except RunError (List String)
  | [] => .ok files
  | (text, argument) :: arguments => do filesOf (← argument.addTo files text) arguments

/-- Finds out what an argument is. `expand` gives the paths that match a well-formed pattern. -/
def ofText {m : Type → Type} [Monad m] (fs : FileSystem m)
    (expand : String → Option (m (List String))) (text : String) : m Argument := do
  if ← fs.isFile text then return file
  match expand text with
  | none => return malformed
  | some paths => return pattern (← (← paths).filterM fs.isFile)

end Argument

/-- The templates that the arguments name. -/
def discover {m : Type → Type} [Monad m] (fs : FileSystem m)
    (expand : String → Option (m (List String))) (texts : List String) :
    m (Except RunError (List String)) := do
  let arguments ← texts.mapM fun text => return (text, ← Argument.ofText fs expand text)
  return Argument.filesOf [] arguments

end Stencil
