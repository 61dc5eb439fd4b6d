import Stencil.Project.Run
import Stencil.Text.Search

/-!
# The command line

Options and templates may come in any order. The value of an option may be the next argument or be
attached to the option, with or without an equals sign to a short one and with an equals sign to a
long one. Short flags may be written together. What follows `--` is no option.

No option may be given twice. The flags for help and version take effect as soon as they are met.
-/

namespace Stencil

/-- The options that have a value. -/
inductive ValuedOption
  | context
  | settings
  | output
  deriving DecidableEq, Repr

/-- The options that have none. -/
inductive Flag
  | verbose
  | help
  | version
  deriving DecidableEq, Repr

/-- Why a command line is refused. -/
inductive UsageError
  | unknownOption (text : String)
  | missingValue (text : String)
  | unexpectedValue (text : String)
  | repeated (text : String)
  | missingArgument (name : String)
  deriving DecidableEq, Repr

/-- The wording of the error. -/
def UsageError.message : UsageError → String
  | unknownOption text => s!"unexpected argument '{text}' found"
  | missingValue text => s!"a value is required for '{text}' but none was supplied"
  | unexpectedValue text => s!"unexpected value for '{text}' found; no more were expected"
  | repeated text => s!"the argument '{text}' cannot be used multiple times"
  | missingArgument name => s!"the following required arguments were not provided: {name}"

/-- What the program is called for. -/
inductive Invocation
  | help
  | version
  | misuse (error : UsageError)
  | run (options : RunOptions) (verbose : Bool)
  deriving DecidableEq, Repr

/-- The arguments that have been read. -/
structure Arguments where
  context : Option String := none
  settings : Option String := none
  output : Option String := none
  verbose : Bool := false
  templates : List String := []

namespace Arguments

/-- The option with the given long name. -/
def longOption? (name : String) : Option (ValuedOption ⊕ Flag) :=
  match name with
  | "context" => some (.inl .context)
  | "config" => some (.inl .settings)
  | "out" => some (.inl .output)
  | "verbose" => some (.inr .verbose)
  | "help" => some (.inr .help)
  | "version" => some (.inr .version)
  | _ => none

/-- The option with the given letter. -/
def shortOption? (c : Char) : Option (ValuedOption ⊕ Flag) :=
  match c with
  | 'c' => some (.inl .context)
  | 'o' => some (.inl .output)
  | 'v' => some (.inr .verbose)
  | 'h' => some (.inr .help)
  | 'V' => some (.inr .version)
  | _ => none

/-- Sets a value that must not be set yet. -/
def setOnce (text value : String) : Option String → Except Invocation (Option String)
  | none => .ok (some value)
  | some _ => .error (.misuse (.repeated text))

/-- Gives an option, written as `text`, its value. -/
def set (a : Arguments) (text : String) (option : ValuedOption) (value : String) :
    Except Invocation Arguments := do
  match option with
  | .context => return { a with context := ← setOnce text value a.context }
  | .settings => return { a with settings := ← setOnce text value a.settings }
  | .output => return { a with output := ← setOnce text value a.output }

/-- Sets a flag, written as `text`. -/
def raise (a : Arguments) (text : String) : Flag → Except Invocation Arguments
  | .verbose => if a.verbose then .error (.misuse (.repeated text)) else .ok { a with verbose := true }
  | .help => .error .help
  | .version => .error .version

/-- Reads short options written together. Returns the option that has its value in the next argument,
if there is one. -/
def readLetters (a : Arguments) (text : String) :
    List Char → Except Invocation (Arguments × Option ValuedOption)
  | [] => .ok (a, none)
  | c :: cs =>
    match shortOption? c with
    | none => .error (.misuse (.unknownOption text))
    | some (.inr flag) => do readLetters (← a.raise text flag) text cs
    | some (.inl option) =>
      match cs with
      | [] => .ok (a, some option)
      | '=' :: value => do return (← a.set text option (String.ofList value), none)
      | value => do return (← a.set text option (String.ofList value), none)

/-- Reads a long option without the hyphens in front of it. Returns the option that has its value in
the next argument, if there is one. -/
def readLong (a : Arguments) (text : String) (cs : List Char) :
    Except Invocation (Arguments × Option ValuedOption) :=
  let (name, value?) := match Text.cutAtChar '=' cs with
    | some (name, value) => (name, some (String.ofList value))
    | none => (cs, none)
  match longOption? (String.ofList name), value? with
  | none, _ => .error (.misuse (.unknownOption text))
  | some (.inl option), some value => do return (← a.set text option value, none)
  | some (.inl option), none => .ok (a, some option)
  | some (.inr _), some _ => .error (.misuse (.unexpectedValue text))
  | some (.inr flag), none => do return (← a.raise text flag, none)

/-- Whether an argument is written like an option. A single hyphen is not. -/
def isOption (text : String) : Bool :=
  match text.toList with
  | '-' :: _ :: _ => true
  | _ => false

/-- Reads an argument that is written like an option. Returns the option that has its value in the
next argument, if there is one. -/
def readOption (a : Arguments) (text : String) :
    Except Invocation (Arguments × Option ValuedOption) :=
  match text.toList with
  | '-' :: '-' :: cs => a.readLong text cs
  | cs => a.readLetters text (cs.drop 1)

/-- Reads arguments. -/
def read (a : Arguments) : List String → Except Invocation Arguments
  | [] => .ok a
  | text :: rest =>
    if text = "--" then .ok { a with templates := a.templates ++ rest }
    else if isOption text then do
      match ← a.readOption text, rest with
      | (a, none), rest => read a rest
      | (_, some _), [] => .error (.misuse (.missingValue text))
      | (a, some option), value :: rest =>
        if isOption value then .error (.misuse (.missingValue text))
        else read (← a.set text option value) rest
    else read { a with templates := a.templates ++ [text] } rest

/-- What the program is called for, once all arguments have been read. -/
def invocation (a : Arguments) : Invocation :=
  match a.context with
  | none => .misuse (.missingArgument "--context <PATH>")
  | some context =>
    if a.templates.isEmpty then .misuse (.missingArgument "<TEMPLATE>...")
    else
      .run ⟨context, a.settings, a.output, a.templates⟩ a.verbose

end Arguments

/-- What the program is called for. -/
def Invocation.ofArguments (texts : List String) : Invocation :=
  match Arguments.read {} texts with
  | .ok a => a.invocation
  | .error invocation => invocation

end Stencil
