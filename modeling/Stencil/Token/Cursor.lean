import Stencil.Token.Lexer

/-!
# Reading tokens one by one

A cursor stands between two tokens: the tokens still to be read, and where the token read last ends.
A parser takes a cursor and returns what it read and the cursor behind it, or the cause why it could
not. Going back is keeping an old cursor.
-/

namespace Stencil

/-- Why tokens are no expression or no type. -/
inductive SyntaxError
  | lexical (error : LexError)
  | empty
  | unexpectedEnd
  | unexpectedToken (text : String)
  | expectedCharacter (c : Char) (found : Option String)
  | expectedIdentifier (found : String)
  | assignmentTarget
  | cast
  | typeArguments
  | objectLiteral
  | arrayLiteral
  | arrayCreation
  | unsupportedKeyword (word : String)
  | classAfterArray
  | typeBeforeClass
  deriving DecidableEq, Repr

/-- The wording of an error in the text `input`. -/
def SyntaxError.message (input : String) : SyntaxError → String
  | lexical error => error.message input
  | empty => "Empty expression"
  | unexpectedEnd => "Unexpected end of expression"
  | unexpectedToken text => s!"Unexpected token '{text}'"
  | expectedCharacter c (some found) => s!"Expected '{c}' but found '{found}'"
  | expectedCharacter c none => s!"Expected '{c}' at the end of the expression"
  | expectedIdentifier found => s!"Expected identifier but found '{found}'"
  | assignmentTarget => "Invalid assignment target"
  | cast => "Invalid cast"
  | typeArguments => "Expected '>' to close type arguments"
  | objectLiteral => "Object literals are not valid expressions"
  | arrayLiteral => "Array literals are not valid expressions"
  | arrayCreation => "Array creation is not supported"
  | unsupportedKeyword word => s!"Unsupported keyword '{word}'"
  | classAfterArray => "Expected 'class' after array type"
  | typeBeforeClass => "Expected a type before '.class'"

/-- The wording of an error with the expression it lies in. -/
def SyntaxError.report (input : String) (error : SyntaxError) : String :=
  s!"Couldn't parse expression, make sure it is valid Java: {error.message input}\n\nIn expression: {input}"

/-- The tokens still to be read, and where the last one read ends. -/
structure Cursor where
  tokens : List Token
  lastEnd : Nat
  deriving DecidableEq, Repr

/-- Reads something from a cursor. -/
abbrev Parser (α : Type) := Cursor → Except SyntaxError (α × Cursor)

namespace Cursor

/-- The cursor before the first of the tokens. -/
def ofTokens (tokens : List Token) : Cursor := ⟨tokens, 0⟩

/-- Where the next token starts. -/
def start (c : Cursor) : Nat :=
  match c.tokens with
  | token :: _ => token.span.start
  | [] => c.lastEnd

/-- The span of what was read since the cursor stood at `start`. -/
def spanFrom (start : Nat) (c : Cursor) : Span := ⟨start, c.lastEnd⟩

/-- The cursor behind the next token, if that is the lexeme `l`. -/
def lexeme? (l : Lexeme) (c : Cursor) : Option Cursor :=
  match c.tokens with
  | token :: rest => if token.lexeme = l then some ⟨rest, token.span.stop⟩ else none
  | [] => none

/-- The cursor behind the next token, if that is the given character of punctuation. -/
def punctuation? (p : Char) (c : Cursor) : Option Cursor := c.lexeme? (.punctuation p)

/-- The cursor behind the next token, if that is the given sign. -/
def sign? (s : Sign) (c : Cursor) : Option Cursor := c.lexeme? (.sign s)

/-- The cursor behind the next token, if that is the given reserved word. -/
def keyword? (k : Keyword) (c : Cursor) : Option Cursor := c.lexeme? (.keyword k)

/-- Whether the next token is the given character of punctuation. -/
def isAt (p : Char) (c : Cursor) : Bool := (c.punctuation? p).isSome

/-- Reads a character of punctuation that must be there. -/
def expect (p : Char) (c : Cursor) : Except SyntaxError Cursor :=
  match c.punctuation? p with
  | some c => .ok c
  | none => .error (.expectedCharacter p (c.tokens.head?.map fun token => token.lexeme.text))

/-- Reads an identifier that must be there. -/
def identifier : Parser String := fun c =>
  match c.tokens with
  | ⟨.identifier name, span⟩ :: rest => .ok (name, ⟨rest, span.stop⟩)
  | token :: _ => .error (.expectedIdentifier token.lexeme.text)
  | [] => .error .unexpectedEnd

/-- Succeeds at the end only. -/
def expectEnd (c : Cursor) : Except SyntaxError Unit :=
  match c.tokens with
  | [] => .ok ()
  | token :: _ => .error (.unexpectedToken token.lexeme.text)

end Cursor

end Stencil
