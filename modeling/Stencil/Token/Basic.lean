import Stencil.Source.Span
import Stencil.Text.Search

/-!
# Tokens of the expression language

A token is a lexeme and the span it was read from. Punctuation, operators and reserved words are
finite, so each is an enumeration with its spelling beside it; the other lexemes carry text.

The operators with a `>` deserve a word: `>` and `>=` are the only ones there are. A shift operator
is written as several of them, one right behind the other, because the same signs also close nested
type arguments one at a time. Whether two tokens touch is read off their spans.
-/

namespace Stencil

/-- The primitive types that have values. -/
inductive Primitive
  | boolean | byte | char | short | int | long | float | double
  deriving DecidableEq, Repr

namespace Primitive

/-- The primitive types in the order of their declaration. -/
def all : List Primitive := [boolean, byte, char, short, int, long, float, double]

/-- The spelling of a primitive type. -/
def text : Primitive → String
  | boolean => "boolean"
  | byte => "byte"
  | char => "char"
  | short => "short"
  | int => "int"
  | long => "long"
  | float => "float"
  | double => "double"

/-- Whether `name` spells a primitive type. -/
def isName (name : String) : Bool := all.any fun p => p.text == name

end Primitive

/-- The reserved words. -/
inductive Keyword
  | trueValue | falseValue | nullValue | this | super | newObject | instanceOf | classOf
  | primitive (p : Primitive)
  | voidType
  deriving DecidableEq, Repr

namespace Keyword

/-- Every reserved word. -/
def all : List Keyword :=
  [trueValue, falseValue, nullValue, this, super, newObject, instanceOf, classOf]
    ++ Primitive.all.map primitive ++ [voidType]

/-- The spelling of a reserved word. -/
def text : Keyword → String
  | trueValue => "true"
  | falseValue => "false"
  | nullValue => "null"
  | this => "this"
  | super => "super"
  | newObject => "new"
  | instanceOf => "instanceof"
  | classOf => "class"
  | primitive p => p.text
  | voidType => "void"

/-- The reserved word spelled `name`, if there is one. -/
def ofText? (name : String) : Option Keyword := all.find? fun k => k.text == name

/-- The name of the type the word stands for, if it stands for one. `void` counts: it names a type
although nothing has it. -/
def typeName? : Keyword → Option String
  | primitive p => some p.text
  | voidType => some "void"
  | _ => none

end Keyword

/-- The operator signs. -/
inductive Sign
  | plus | plusPlus | plusAssign
  | minus | minusMinus | minusAssign
  | star | starAssign
  | slash | slashAssign
  | percent | percentAssign
  | caret | caretAssign
  | amp | ampAmp | ampAssign
  | bar | barBar | barAssign
  | less | lessEqual | shiftLeft | shiftLeftAssign
  | greater | greaterEqual
  | question | tilde | bang | bangEqual | assign | equalEqual
  deriving DecidableEq, Repr

/-- The spelling of an operator sign. -/
def Sign.text : Sign → String
  | plus => "+"
  | plusPlus => "++"
  | plusAssign => "+="
  | minus => "-"
  | minusMinus => "--"
  | minusAssign => "-="
  | star => "*"
  | starAssign => "*="
  | slash => "/"
  | slashAssign => "/="
  | percent => "%"
  | percentAssign => "%="
  | caret => "^"
  | caretAssign => "^="
  | amp => "&"
  | ampAmp => "&&"
  | ampAssign => "&="
  | bar => "|"
  | barBar => "||"
  | barAssign => "|="
  | less => "<"
  | lessEqual => "<="
  | shiftLeft => "<<"
  | shiftLeftAssign => "<<="
  | greater => ">"
  | greaterEqual => ">="
  | question => "?"
  | tilde => "~"
  | bang => "!"
  | bangEqual => "!="
  | assign => "="
  | equalEqual => "=="

/-- What a token says. -/
inductive Lexeme
  /-- A bracket, a separator or another single character of punctuation. -/
  | punctuation (c : Char)
  | identifier (name : String)
  | keyword (word : Keyword)
  /-- A string literal, by the text it denotes. -/
  | string (value : String)
  /-- A character literal, by the one character it denotes. -/
  | character (value : Char)
  | sign (s : Sign)
  /-- A number literal, by its spelling. -/
  | number (spelling : String)
  deriving DecidableEq, Repr

/-- The text of a lexeme as messages quote it: the denoted text of a string or character literal and
the spelling of everything else. -/
def Lexeme.text : Lexeme → String
  | punctuation c => String.singleton c
  | identifier name => name
  | keyword word => word.text
  | string value => value
  | character value => String.singleton value
  | sign s => s.text
  | number spelling => spelling

/-- A lexeme and the bytes it was read from. -/
structure Token where
  lexeme : Lexeme
  span : Span
  deriving DecidableEq, Repr

/-- Whether `next` starts where `previous` ends. -/
def Token.touches (previous next : Token) : Bool := previous.span.stop == next.span.start

/-- Why a text is no sequence of tokens. -/
inductive LexFault
  | lambda
  | invalidCharacter (c : Char)
  | numericSeparator
  | exponent
  | numberLiteral
  | hexadecimal
  | unterminatedQuote
  | unicodeEscape (digits : String)
  | escape (c : Char)
  | characterCount
  deriving DecidableEq, Repr

/-- The wording of a fault. -/
def LexFault.reason : LexFault → String
  | lambda => "Lambda expressions are not supported"
  | invalidCharacter c => s!"Invalid character [{c}]"
  | numericSeparator => "Invalid numeric separator"
  | exponent => "Invalid exponent"
  | numberLiteral => "Invalid number literal"
  | hexadecimal => "Invalid hexadecimal literal"
  | unterminatedQuote => "Unterminated quote"
  | unicodeEscape digits => s!"Invalid unicode escape [\\u{digits}]"
  | escape c => s!"Invalid escape [\\{c}]"
  | characterCount => "Character literals must hold exactly one character"

/-- A fault and the span where reading stopped. -/
structure LexError where
  fault : LexFault
  span : Span
  deriving DecidableEq, Repr

/-- The message of the error, which quotes the text that was read. -/
def LexError.message (e : LexError) (input : String) : String :=
  s!"Lexer Error: {e.fault.reason} at column {e.span.start} in expression [{input}]"

end Stencil
