import Stencil.File.Path
import Stencil.Project.Error

/-!
# Where results are written

The result of a template is written to a file whose path is that of the template, below the longest
directory that all templates have in common, with another extension. Segments that lead upwards or
name no place are left out, so the names that are kept lead downwards only. No two templates may share
an output file.

There is one exception to going downwards. The extension of a file name is what stands behind its last
full stop, so of a template that is named two full stops and an extension, only a full stop is left,
and with the other extension its name becomes `..`. That is the output file it gets: it leads out of
the directory it should lie in, to a directory, and writing to that fails.
-/

namespace Stencil

namespace OutputFile

/-- The extension of output files. -/
def extension : String := "json"

/-- The segments of the directory that a file lies in. -/
def directorySegments (path : String) : List Path.Segment := (Path.segments path).dropLast

/-- The segments that two lists start with. -/
def commonFront : (a b : List Path.Segment) → List Path.Segment
  | a :: as, b :: bs => if a = b then a :: commonFront as bs else []
  | _, _ => []

/-- The segments of the longest directory that all files lie in. -/
def commonDirectory : List String → List Path.Segment
  | [] => []
  | path :: paths => (paths.map directorySegments).foldl commonFront (directorySegments path)

/-- The names among the segments. -/
def names (segments : List Path.Segment) : List String :=
  segments.filterMap fun
    | .named name => some name
    | _ => none

/-- The output file of a template, given how many segments all templates have in common. -/
def ofTemplate (common : Nat) (path : String) : String :=
  let kept := names ((Path.segments path).drop common)
  Path.ofPieces (kept.dropLast ++ (kept.getLast?.map (Path.withExtension extension)).toList)

/-- Pairs each template with its output file, unless one has the output file of an earlier one. -/
def assign (common : Nat) (done : List (String × String)) :
    List String → Except RunError (List (String × String))
  | [] => .ok done
  | path :: paths =>
    let output := ofTemplate common path
    match done.find? fun entry => entry.2 == output with
    | some (earlier, _) => .error (.sharedOutput earlier path output)
    | none => assign common (done ++ [(path, output)]) paths

/-- The output file of each template, in order. -/
def ofTemplates (paths : List String) : Except RunError (List String) :=
  (assign (commonDirectory paths).length [] paths).map fun entries => entries.map (·.2)

end OutputFile

end Stencil
