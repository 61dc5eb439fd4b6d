import Stencil.Context.Basic
import Stencil.Text.CharClass
import Stencil.Text.DecimalDigit
import Stencil.TypeRef.Parser

/-!
# Loop definitions

The value of `v-for` declares the variables of a loop and names what it goes through:

    Todo todo in todos
    (Todo todo, int index) of todos
    (String value, String key, int index) in object

The word `in`, or `of`, with white space on both sides divides the two parts. The first variable must
have a type. A second one without a type is an index; the second of three is a key, and a key
without a type is a text.
-/

namespace Stencil

/-- Why a loop definition is refused. -/
inductive LoopFault
  | noSeparator
  | emptyIterable
  | invalidName (name : String)
  | untyped (name : String)
  | invalidType (error : TypeError)
  | tooManyVariables
  deriving DecidableEq, Repr

/-- The wording of the reason. -/
def LoopFault.message : LoopFault → String
  | noSeparator => "expected \"Type item in items\""
  | emptyIterable => "the iterable expression is empty"
  | invalidName name => s!"\"{name}\" is not a valid variable name"
  | untyped name => s!"the variable \"{name}\" must declare its type"
  | invalidType error => error.message
  | tooManyVariables => "at most three loop variables can be declared"

/-- A refused loop definition, and why it is refused. -/
structure LoopError where
  definition : String
  fault : LoopFault
  deriving DecidableEq, Repr

/-- The wording of the error. -/
def LoopError.message (e : LoopError) : String :=
  s!"Invalid v-for definition \"{e.definition}\": {e.fault.message}"

/-- A loop. -/
structure LoopDefinition where
  /-- The value, then key and index where there are some. -/
  declared : List Variable
  /-- The expression that the loop goes through. -/
  iterable : String
  iterableType : TypeRef
  deriving DecidableEq, Repr

namespace LoopDefinition

/-! ## The two parts -/

/-- Whether the text starts with white space. -/
def startsWithSpace : List Char → Bool
  | c :: _ => Text.isWhiteSpace c
  | [] => false

/-- What is behind the separator at the front of the text, trimmed. White space belongs to the
separator, on both sides of its word. There must be no line break in what is behind it. -/
def afterSeparator? (cs : List Char) : Option (List Char) :=
  let behind (rest : List Char) : Option (List Char) :=
    let iterable := Text.trim rest
    if startsWithSpace rest && !iterable.contains '\n' then some iterable else none
  if startsWithSpace cs then
    match Text.trimLeft cs with
    | 'i' :: 'n' :: rest | 'o' :: 'f' :: rest => behind rest
    | _ => none
  else none

/-- Divides the text at the first separator, unless a line break comes before it. -/
def divideAtSeparator : List Char → Option (List Char × List Char)
  | [] => none
  | c :: cs =>
    match afterSeparator? (c :: cs) with
    | some iterable => some ([], iterable)
    | none =>
      if c = '\n' then none
      else (divideAtSeparator cs).map fun (declaration, iterable) => (c :: declaration, iterable)

/-- Divides a definition into declaration and iterable. The declaration has at least one character;
it is white space only if nothing else stands before the only separator. -/
def divide : List Char → Option (List Char × List Char)
  | [] => none
  | c :: cs =>
    let here :=
      if c = '\n' then none
      else (divideAtSeparator cs).map fun (declaration, iterable) => (c :: declaration, iterable)
    if Text.isWhiteSpace c then (divide cs).or here else here

/-! ## The declaration -/

/-- The pieces of the text between the commas outside of angle brackets; `depth` is the number of
open ones. -/
def splitCommas : (depth : Nat) → List Char → List (List Char)
  | _, [] => [[]]
  | depth, c :: cs =>
    if c = ',' && depth = 0 then [] :: splitCommas 0 cs
    else
      let depth := if c = '<' then depth + 1 else if c = '>' then depth - 1 else depth
      match splitCommas depth cs with
      | piece :: pieces => (c :: piece) :: pieces
      | [] => [[c]]

/-- The declarations of the variables: one, or several in parentheses. -/
def declarations (cs : List Char) : List (List Char) :=
  match cs with
  | '(' :: inner =>
    if inner.getLast? = some ')' then splitCommas 0 inner.dropLast else [cs]
  | _ => [cs]

/-- The type and the name in a declaration; the last blank divides them. The type may be missing. -/
def typeAndName (declaration : List Char) : List Char × List Char :=
  let cs := Text.trim declaration
  let name := (cs.reverse.takeWhile fun c => !Text.isBlank c).reverse
  (Text.trim (cs.take (cs.length - name.length)), Text.trim name)

/-- Reads a declaration of a variable; `default` is the type that it has when it states none. -/
def readVariable (default : Option TypeRef) (declaration : List Char) :
    Except LoopFault (String × TypeRef) :=
  let (type, name) := typeAndName declaration
  let nameText := String.ofList name
  if !Text.isIdentifier name then .error (.invalidName nameText)
  else if type.isEmpty then
    match default with
    | some type => .ok (nameText, type)
    | none => .error (.untyped nameText)
  else
    match TypeRef.ofText (String.ofList type) with
    | .ok type => .ok (nameText, type)
    | .error error => .error (.invalidType error)

/-- Reads the declarations of the variables. -/
def readVariables : List (List Char) → Except LoopFault (List (String × TypeRef))
  | [] => .ok []
  | value :: more => do
    let value ← readVariable none value
    match more with
    | [] => return [value]
    | [second] => return [value, ← readVariable (some .int) second]
    | [key, index] =>
      return [value, ← readVariable (some .string) key, ← readVariable (some .int) index]
    | _ => throw .tooManyVariables

/-! ## Reading and writing -/

/-- Whether the text is a number without sign: digits, of any script, and at least one. -/
def isInteger (cs : List Char) : Bool := !cs.isEmpty && cs.all Text.isDecimalDigit

/-- Reads a definition apart from what the imports of a context say about its types. -/
def read (definition : List Char) : Except LoopFault (List (String × TypeRef) × List Char) := do
  let some (declaration, iterable) := divide definition | throw .noSeparator
  if iterable.isEmpty then throw .emptyIterable
  return (← readVariables (declarations (Text.trim declaration)), iterable)

/-- Reads a definition. Its types are qualified by the imports of the context. -/
def parse (ctx : Context) (definition : String) : Except LoopError LoopDefinition :=
  match read definition.toList with
  | .ok (declared, iterable) =>
    .ok
      { declared := declared.map fun (name, type) => ⟨name, ctx.qualify type, .loopLocal⟩
        iterable := String.ofList iterable
        iterableType := if isInteger iterable then .int else .dynamic }
  | .error fault => .error ⟨definition, fault⟩

/-- The variables as they stand in the processed template, without their types. -/
def head (d : LoopDefinition) : String :=
  match d.declared.map (·.name) with
  | [name] => name
  | names => "(" ++ Text.joinWith ", " names ++ ")"

/-- The definition with the iterable replaced by the text `iterable`. -/
def render (d : LoopDefinition) (iterable : String) : String := d.head ++ " in " ++ iterable

end LoopDefinition

end Stencil
