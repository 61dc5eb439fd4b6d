import Stencil.File.Path
import Stencil.File.System
import Stencil.Text.Bytes

/-!
# A file tree as a value

Files and directories by their absolute paths, and a working directory. Following a path works as in
a real file system: everything on the way must be a directory, and what a slash follows as well. Names
and whole paths are limited in size, whatever they lead to.
-/

namespace Stencil

/-- What is at a place of a file tree. -/
inductive FileEntry
  | file (bytes : ByteArray)
  | directory

/-- A file tree. Places are lists of names, from the root. -/
structure FileTree where
  entries : List (List String × FileEntry) := []
  /-- The directory that relative paths start in. -/
  workDirectory : List String := []

namespace FileTree

/-- The entry at a place. The root is always a directory. -/
def entryAt? (t : FileTree) (place : List String) : Option FileEntry :=
  match place with
  | [] => some .directory
  | place => t.entries.lookup place

/-- The tree with something at a place. -/
def put (t : FileTree) (place : List String) (entry : FileEntry) : FileTree :=
  { t with entries := (place, entry) :: t.entries.filter fun e => e.1 != place }

/-- The number of bytes that a name may have. -/
def maxNameSize : Nat := 255

/-- Follows the texts between the slashes of a path, from a directory on. -/
def follow (t : FileTree) : (place : List String) → List String → Except ReadFault (List String)
  | place, [] => .ok place
  | place, piece :: pieces =>
    match t.entryAt? place with
    | none => .error .notFound
    | some (.file _) => .error .notDirectory
    | some .directory =>
      if piece = "" || piece = "." then follow t place pieces
      else if piece = ".." then follow t place.dropLast pieces
      else if maxNameSize < Text.byteSize piece.toList then .error .nameTooLong
      else follow t (place ++ [piece]) pieces

/-- The place that a path leads to. -/
def place (t : FileTree) (path : String) : Except ReadFault (List String) :=
  if path = "" then .error .notFound
  else if path.toList.contains '\x00' then .error .nullInPath
  else if Path.maxSize < Text.byteSize path.toList then .error .nameTooLong
  else t.follow (if Path.isAbsolute path then [] else t.workDirectory) (Path.pieces path)

/-- The entry that a path leads to. -/
def find (t : FileTree) (path : String) : Except ReadFault FileEntry := do
  match t.entryAt? (← t.place path) with
  | some entry => return entry
  | none => throw .notFound

/-- The bytes of the file that a path leads to. -/
def read (t : FileTree) (path : String) : Except ReadFault ByteArray := do
  match ← t.find path with
  | .file bytes => return bytes
  | .directory => throw .isDirectory

/-- Whether a path leads to a directory. -/
def isDirectory (t : FileTree) (path : String) : Bool := t.find path matches .ok .directory

/-- Whether a path leads to a file. -/
def isFile (t : FileTree) (path : String) : Bool := t.find path matches .ok (.file _)

/-- The names in the directory at a place. -/
def namesAt (t : FileTree) (place : List String) : List String :=
  t.entries.filterMap fun e => if e.1.dropLast = place then e.1.getLast? else none

/-- Makes the directories along a path, from a place on. -/
def makeDirectories (t : FileTree) : (place : List String) → List String → Option FileTree
  | _, [] => some t
  | place, piece :: pieces =>
    if piece = "" || piece = "." then makeDirectories t place pieces
    else if piece = ".." then makeDirectories t place.dropLast pieces
    else
      let inner := place ++ [piece]
      match t.entryAt? inner with
      | some .directory => makeDirectories t inner pieces
      | some (.file _) => none
      | none =>
        if maxNameSize < Text.byteSize piece.toList then none
        else makeDirectories (t.put inner .directory) inner pieces

/-- Makes a directory and those it lies in. The empty path stands for the working directory. -/
def createDirectories (t : FileTree) (path : String) : Option FileTree :=
  if path.toList.contains '\x00' || Path.maxSize < Text.byteSize path.toList then none
  else t.makeDirectories (if Path.isAbsolute path then [] else t.workDirectory) (Path.pieces path)

/-- Writes a text to a file in a directory that is there. -/
def write (t : FileTree) (path text : String) : Option FileTree :=
  match t.place path with
  | .error _ => none
  | .ok place =>
    match t.entryAt? place, t.entryAt? place.dropLast with
    | some .directory, _ => none
    | _, some .directory => some (t.put place (.file text.toUTF8))
    | _, _ => none

/-- The operations on a file tree that is kept as a state. -/
def system : FileSystem (StateM FileTree) where
  read path := return (← get).read path
  pathExists path := return (← get).find path matches .ok _
  isDirectory path := return (← get).isDirectory path
  isFile path := return (← get).isFile path
  entries path := do
    let t ← get
    match t.place path with
    | .ok place => return t.namesAt place
    | .error _ => return []
  createDirectories path := do
    match (← get).createDirectories path with
    | some t => set t; return true
    | none => return false
  write path text := do
    match (← get).write path text with
    | some t => set t; return true
    | none => return false

/-- The tree with a file in the working directory, and with the directories on the way to it. -/
def addFile (t : FileTree) (path : String) (bytes : ByteArray) : FileTree :=
  let place := t.workDirectory ++ (Path.pieces path).filter fun p => p != "" && p != "."
  let ancestors := (List.range place.length).map fun k => place.take k
  let t := ancestors.foldl (fun t place =>
    if place.isEmpty then t else t.put place .directory) t
  t.put place (.file bytes)

/-- The files below a directory, by their paths; the path of the directory stands in front of each.
There are none if there is no such directory. -/
def filesBelow (t : FileTree) (path : String) : List (String × ByteArray) :=
  if t.isDirectory path then
    match t.place path with
    | .ok place => t.entries.filterMap fun
        | (file, .file bytes) =>
          if place.isPrefixOf file then
            some (Path.join path (Path.ofPieces (file.drop place.length)), bytes)
          else none
        | _ => none
    | .error _ => []
  else []

end FileTree

end Stencil
