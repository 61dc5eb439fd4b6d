import Stencil.Program.Reply

/-!
# The program

The thin layer between the compiler and the machine: the files of the machine as a file system, the
arguments of the call, and the two outputs.
-/

namespace Stencil

/-- Why the machine could not read a file. -/
def faultOfError : IO.Error → ReadFault
  | .noFileOrDirectory _ code _ => .refused "No such file or directory" code.toNat
  | .permissionDenied _ code details => .refused details code.toNat
  | .inappropriateType _ code details => .refused details code.toNat
  | .invalidArgument _ code details => .refused details code.toNat
  | .otherError code details => .refused details code.toNat
  | error => .refused (toString error) 0

/-- Whether an operation of the machine succeeds. -/
def succeeds (operation : IO Unit) : IO Bool := do
  match ← operation.toBaseIO with
  | .ok () => return true
  | .error _ => return false

/-- The files of the machine. -/
def machineFiles : FileSystem IO where
  read path := do
    if path.toList.contains '\x00' then return .error .nullInPath
    match ← (IO.FS.readBinFile path).toBaseIO with
    | .ok bytes => return .ok bytes
    | .error error => return .error (faultOfError error)
  pathExists path := do
    if path = "" then return false
    ((← IO.currentDir) / path).pathExists
  isDirectory path := do
    if path = "" then return false
    ((← IO.currentDir) / path).isDir
  isFile path := do
    if path = "" then return false
    match ← ((← IO.currentDir) / path).metadata.toBaseIO with
    | .ok metadata => return metadata.type == .file
    | .error _ => return false
  entries path := do
    match ← ((← IO.currentDir) / path).readDir.toBaseIO with
    | .ok entries => return (entries.map (·.fileName)).toList
    | .error _ => return []
  createDirectories path := do
    if path = "" then return true
    succeeds (IO.FS.createDirAll path)
  write path text := succeeds (IO.FS.writeFile path text)

end Stencil

/-- Runs the program with the arguments of the call. -/
def main (arguments : List String) : IO UInt32 := do
  let reply ← Stencil.Reply.ofInvocation Stencil.machineFiles (.ofArguments arguments)
  (← IO.getStdout).putStr reply.printed
  (← IO.getStderr).putStr reply.complaints
  return reply.exitCode.toUInt32
