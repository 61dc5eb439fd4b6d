import Stencil.File.Path
import Stencil.File.System
import Stencil.Glob.Pattern

/-!
# The files that match a pattern

The directories are gone through piece by piece. A piece without special characters is looked up, not
searched for; any other piece is compared with the names in the directory, in alphabetical order.
The entries `.` and `..` match only a piece that starts with a full stop, and come first then.

Paths in the working directory are written without the dot that stands for it.
-/

namespace Stencil.Glob

variable {m : Type → Type} [Monad m]

/-- The path of an entry of a directory. -/
def entryPath (directory name : String) : String :=
  if Path.segments directory = [.current] then name else Path.join directory name

/-- Whether a piece stands for any number of directories. -/
def isDirectories (piece : List GlobItem) : Bool := piece.contains .directories

/-- The names in a directory that a piece is compared with besides those of its entries. -/
def dots (piece : List GlobItem) : List String :=
  if piece.head? = some (.char '.') then
    ["..", "."].filter fun name => GlobItem.matchAll piece name.toList
  else []

/-- The paths below the directory `path` that match the pieces. No more than `fuel` pieces and
directories are gone through on the way to a path. -/
def expandFrom (fs : FileSystem m) (wantsDirectory : Bool) :
    (fuel : Nat) → List (List GlobItem) → (path : String) → m (List String)
  | 0, _, _ | _, [], _ => return []
  | fuel + 1, piece :: more, path => do
    let settle (more : List (List GlobItem)) (path : String) : m (List String) := do
      if !more.isEmpty then expandFrom fs wantsDirectory fuel more path
      else if wantsDirectory && !(← fs.isDirectory path) then return []
      else return [path]
    match GlobItem.literal? piece with
    | some name =>
      let next := entryPath path name
      let isThere ← if name = "." || name = ".." then fs.isDirectory path else fs.pathExists next
      if isThere then settle more next else return []
    | none =>
      if !(← fs.isDirectory path) then return []
      let visit (name : String) : m (List String) := do
        let next := entryPath path name
        if isDirectories piece then
          let goesOn ← fs.isDirectory next
          let behind := more.dropWhile isDirectories
          let own ← match behind with
            | [] => if goesOn then pure [next] else pure []
            | piece :: more =>
              if GlobItem.matchAll piece name.toList then settle more next else pure []
          let inside ← if goesOn then expandFrom fs wantsDirectory fuel (piece :: behind) next
            else pure []
          return own ++ inside
        else if GlobItem.matchAll piece name.toList then settle more next
        else return []
      let names := (← fs.entries path).mergeSort fun a b => a ≤ b
      let special ← (dots piece).mapM fun name => settle more (Path.join path name)
      let found ← names.mapM visit
      return special.flatten ++ found.flatten

/-- The paths that match the pattern, in alphabetical order of their segments. The size of a path bounds
how deep directories are gone into. -/
def expand (fs : FileSystem m) (g : Glob) : m (List String) :=
  expandFrom fs g.wantsDirectory (Path.maxSize + g.pieces.length + 1) g.pieces
    (if g.isAbsolute then "/" else ".")

/-- How to find the paths that match the pattern that a text spells, if it is well formed. -/
def expansion? (fs : FileSystem m) (pattern : String) : Option (m (List String)) :=
  (parse? pattern).map fun glob => glob.expand fs

end Stencil.Glob
