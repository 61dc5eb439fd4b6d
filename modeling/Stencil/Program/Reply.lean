import Stencil.Program.CommandLine

/-!
# What the program prints

Results go to the standard output and everything else to the standard error. The exit code is 0 if all
templates were compiled without a problem, 1 if not, and 2 if there was no run or it ended early.
-/

namespace Stencil

/-- What a call of the program prints, and its exit code. -/
structure Reply where
  exitCode : Nat
  printed : String := ""
  complaints : String := ""
  deriving DecidableEq, Repr

namespace Reply

/-- The name of the program. -/
def programName : String := "tplc"

/-- The version of the program. -/
def version : String := "0.1.0"

/-- How the program is called. -/
def usage : String :=
  "Usage: tplc [OPTIONS] --context <PATH> <TEMPLATE>...\n"

/-- The text that explains the program. -/
def help : String :=
  "Template expression compiler\n\n" ++ usage ++
  "
Arguments:
  <TEMPLATE>...  Template files or glob patterns

Options:
  -c, --context <PATH>  Context descriptor JSON (component, imports, local components)
      --config <PATH>   Compiler configuration JSON
  -o, --out <DIR>       Write one .json file per template, mirroring the template tree, instead of printing
  -v, --verbose         Log imports, scopes and accepted expressions
  -h, --help            Print help
  -V, --version         Print version
"

/-- The tag that a record of a level is shown with. -/
def levelTag : LogLevel → String
  | .debug => "[DEBUG]"
  | .info => "[INFO]"
  | .warn => "[WARN]"
  | .error => "[ERROR]"

/-- The log as it is shown: everything in a verbose call, else only problems. -/
def showLog (verbose : Bool) (log : List LogRecord) : String :=
  let lowest := if verbose then LogLevel.debug else .warn
  let shown := log.filter fun r => lowest.isHeardAt r.level
  String.join (shown.map fun r => levelTag r.level ++ " " ++ r.message ++ "\n")

/-- The reply to a call. -/
def ofInvocation {m : Type → Type} [Monad m] (fs : FileSystem m) : Invocation → m Reply
  | .help => return { exitCode := 0, printed := help }
  | .version => return { exitCode := 0, printed := programName ++ " " ++ version ++ "\n" }
  | .misuse error =>
    return { exitCode := 2, complaints := "error: " ++ error.message ++ "\n\n" ++ usage }
  | .run options verbose => do
    let (answer, log) ← runProject fs options
    match answer with
    | .ok summary =>
      return {
        exitCode := summary.exitCode
        printed := summary.printed
        complaints := showLog verbose log }
    | .error error =>
      return { exitCode := 2, complaints := showLog verbose log ++ "Error: " ++ error.report ++ "\n" }

end Reply

end Stencil
