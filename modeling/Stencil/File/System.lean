import Stencil.Text.Search

/-!
# File systems

What the compiler asks of a file system. The operations are those of a record, so that a run can be
carried out on the files of the machine or on a tree that is a value.
-/

namespace Stencil

/-- Why a file cannot be read. -/
inductive ReadFault
  /-- A refusal by the system, with its description and number. -/
  | refused (description : String) (code : Nat)
  /-- The path holds a null character. -/
  | nullInPath
  /-- The bytes of the file are no text. -/
  | notText
  deriving DecidableEq, Repr

namespace ReadFault

/-- There is no such file. -/
def notFound : ReadFault := refused "No such file or directory" 2

/-- Something on the way to the file is no directory. -/
def notDirectory : ReadFault := refused "Not a directory" 20

/-- The file is a directory. -/
def isDirectory : ReadFault := refused "Is a directory" 21

/-- The path, or a name in it, is too long. -/
def nameTooLong : ReadFault := refused "File name too long" 36

/-- The wording of the fault. -/
def message : ReadFault → String
  | refused description code => s!"{description} (os error {code})"
  | nullInPath => "file name contained an unexpected NUL byte"
  | notText => "stream did not contain valid UTF-8"

end ReadFault

/-- The operations of a file system. -/
structure FileSystem (m : Type → Type) where
  /-- The bytes of a file. -/
  read : String → m (Except ReadFault ByteArray)
  /-- Whether there is something at a path. -/
  pathExists : String → m Bool
  /-- Whether there is a directory at a path. -/
  isDirectory : String → m Bool
  /-- Whether there is a file at a path. -/
  isFile : String → m Bool
  /-- The names in a directory, in any order. -/
  entries : String → m (List String)
  /-- Makes a directory and those it lies in. Tells whether it is there now. -/
  createDirectories : String → m Bool
  /-- Writes a text to a file. Tells whether it could. -/
  write : String → String → m Bool

/-- The text of a file. -/
def FileSystem.readText {m : Type → Type} [Monad m] (fs : FileSystem m) (path : String) :
    m (Except ReadFault String) := do
  match ← fs.read path with
  | .error fault => return .error fault
  | .ok bytes =>
    match String.fromUTF8? bytes with
    | some text => return .ok text
    | none => return .error .notText

end Stencil
