import Stencil.Text.Search

/-!
# File paths

A path is a text with slashes in it. Two paths name the same place in the tree if they have the same
segments: repeated slashes, a slash at the end, and single dots other than one in front, do not
count.
-/

namespace Stencil.Path

/-- A segment of a path. -/
inductive Segment
  /-- The slash in front of an absolute path. -/
  | root
  /-- The single dot in front of a path. -/
  | current
  | parent
  | named (name : String)
  deriving DecidableEq, Repr

/-- The number of bytes that a path can have at most. -/
def maxSize : Nat := 4095

/-- The texts between the slashes. -/
def pieces (path : String) : List String :=
  (Text.splitOnChar '/' path.toList).map String.ofList

/-- Whether the path starts at the root. -/
def isAbsolute (path : String) : Bool := path.toList.head? = some '/'

/-- The segment that a text between slashes stands for, if it is not the first one. -/
def inner? (piece : String) : Option Segment :=
  if piece = "" || piece = "." then none
  else if piece = ".." then some .parent
  else some (.named piece)

/-- The segments of a path. -/
def segments (path : String) : List Segment :=
  let front :=
    if isAbsolute path then [Segment.root]
    else if (pieces path).head? = some "." then [.current]
    else []
  front ++ (pieces path).filterMap inner?

/-- Whether two paths have the same segments. -/
def same (a b : String) : Bool := segments a = segments b

/-- The path `relative` inside of the directory `base`. -/
def join (base relative : String) : String :=
  if isAbsolute relative then relative
  else
    match base.toList.getLast? with
    | none => relative
    | some '/' => base ++ relative
    | some _ => base ++ "/" ++ relative

/-- The path with slashes between the given texts. -/
def ofPieces (pieces : List String) : String := Text.joinWith "/" pieces

/-- The texts between the slashes without those at the end that do not count. The first one always
counts. -/
def trimPieces : List String → List String
  | [] => []
  | first :: more =>
    first :: (more.reverse.dropWhile fun p => p = "" || p = ".").reverse

/-- The directory that a path to a file lies in. -/
def directory (path : String) : String :=
  match trimPieces (trimPieces (pieces path)).dropLast with
  | [] => ""
  | [""] => "/"
  | kept => ofPieces kept

/-- The last text between slashes. -/
def fileName (path : String) : String := ((pieces path).getLast?).getD ""

/-- A file name without its extension: what follows the last full stop, which must not be the first
character. -/
def stem (name : String) : String :=
  let cs := name.toList
  let extension := Text.afterLast '.' cs
  let kept := cs.take (cs.length - extension.length - 1)
  if kept.isEmpty then name else String.ofList kept

/-- A file name with the given extension in place of its own. What is left of a name such as `..x`
without its extension is not a name any more but the way to the directory above, which has no
extension. -/
def withExtension (extension name : String) : String :=
  if stem name = "." then ".." else stem name ++ "." ++ extension

end Stencil.Path
