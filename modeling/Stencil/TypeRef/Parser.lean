import Stencil.Token.Cursor
import Stencil.TypeRef.Basic
import Stencil.Text.WhiteSpace

/-!
# Reading types

A type is a primitive type or a dotted class name, the latter with optional arguments in angle
brackets, and then any number of empty square brackets. An argument may be the wildcard `?`. Empty
angle brackets are allowed and mean no arguments.

Arguments are types again. `TypeRef.parser n` reads types nested less than `n` deep; every level of
nesting takes a `<` from the tokens, so the number of tokens is bound enough.
-/

namespace Stencil

namespace TypeRef

/-- The rest of a dotted name that starts with `name`. A full stop that no identifier follows is not
part of the name. -/
def dottedName (name : String) : (lastEnd : Nat) → List Token → String × Cursor
  | _, ⟨.punctuation '.', _⟩ :: ⟨.identifier part, span⟩ :: rest =>
    dottedName (name ++ "." ++ part) span.stop rest
  | lastEnd, tokens => (name, ⟨tokens, lastEnd⟩)

/-- The number of empty square brackets, and the cursor behind them. -/
def arrayDims : (lastEnd : Nat) → List Token → Nat × Cursor
  | _, ⟨.punctuation '[', _⟩ :: ⟨.punctuation ']', span⟩ :: rest =>
    let (dims, c) := arrayDims span.stop rest
    (dims + 1, c)
  | lastEnd, tokens => (0, ⟨tokens, lastEnd⟩)

/-- A type argument: the wildcard or a type. -/
def argument (nested : Parser TypeRef) : Parser TypeRef := fun c =>
  match c.sign? .question with
  | some c => .ok (simple "?", c)
  | none => nested c

/-- Type arguments with commas between them, at most `n + 1` of them. -/
def arguments (nested : Parser TypeRef) : Nat → Parser (List TypeRef)
  | 0, c => do
    let (arg, c) ← argument nested c
    return ([arg], c)
  | n + 1, c => do
    let (arg, c) ← argument nested c
    match c.punctuation? ',' with
    | some c => do
      let (args, c) ← arguments nested n c
      return (arg :: args, c)
    | none => return ([arg], c)

/-- A dotted class name with optional type arguments. -/
def classType (nested : Parser TypeRef) : Parser TypeRef := fun c => do
  let (name, c) ← c.identifier
  let (name, c) := dottedName name c.lastEnd c.tokens
  match c.sign? .less with
  | none => return (simple name, c)
  | some c =>
    match c.sign? .greater with
    | some c => return (simple name, c)
    | none => do
      let (args, c) ← arguments nested c.tokens.length c
      match c.sign? .greater with
      | some c => return (.named name args 0, c)
      | none => .error .typeArguments

/-- A primitive type or a class type, then array dimensions. -/
def arrayType (nested : Parser TypeRef) : Parser TypeRef := fun c => do
  let (type, c) ←
    match c.tokens with
    | ⟨.keyword word, span⟩ :: rest =>
      match word.typeName? with
      | some name => pure (simple name, ⟨rest, span.stop⟩)
      | none => classType nested c
    | _ => classType nested c
  let (dims, c) := arrayDims c.lastEnd c.tokens
  return (type.addDims dims, c)

/-- Reads a type with at most `n` levels of type arguments. -/
def parser : Nat → Parser TypeRef
  | 0 => fun _ => .error .unexpectedEnd
  | n + 1 => arrayType (parser n)

/-- Reads a type. -/
def read : Parser TypeRef := fun c => parser (c.tokens.length + 1) c

/-- Reads a class type. -/
def readClass : Parser TypeRef := fun c => classType (parser c.tokens.length) c

end TypeRef

/-- Why a text is no type. -/
inductive TypeFault
  | lexical (error : LexError)
  | malformed (error : SyntaxError)
  | trailing (text : String)
  deriving DecidableEq, Repr

/-- A text that is no type, and why. -/
structure TypeError where
  text : String
  fault : TypeFault
  deriving DecidableEq, Repr

/-- The wording of the error. -/
def TypeError.message (e : TypeError) : String :=
  let reason := match e.fault with
    | .lexical error => error.message e.text
    | .malformed error => error.report e.text
    | .trailing text => (SyntaxError.unexpectedToken text).message e.text
  s!"Invalid type \"{e.text}\": {reason}"

namespace TypeRef

/-- The type a text spells, as a source of expressions would write it. -/
def parse (text : String) : Except TypeError TypeRef :=
  match Token.readAll text with
  | .error error => .error ⟨text, .lexical error⟩
  | .ok tokens =>
    match read (.ofTokens tokens) with
    | .error error => .error ⟨text, .malformed error⟩
    | .ok (type, c) =>
      match c.tokens with
      | [] => .ok type
      | token :: _ => .error ⟨text, .trailing token.lexeme.text⟩

/-- The type a text spells, as a declaration writes it: white space around it does not count, and
`void` and `Any` are the two types without a class. -/
def ofText (text : String) : Except TypeError TypeRef :=
  match Text.trimString text with
  | "void" => .ok .void
  | "Any" => .ok .dynamic
  | other => parse other

/-- The type a text spells, if it spells one. -/
def ofText? (text : String) : Option TypeRef :=
  match ofText text with
  | .ok type => some type
  | .error _ => none

end TypeRef

end Stencil
