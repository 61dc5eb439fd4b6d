import Stencil.Json.Basic

/-!
# Writing JSON

A value is written either on one line or with one item or field a line, two blanks a level. Only
what JSON requires is escaped: quotes, backslashes and the control characters below the space.
-/

namespace Stencil.Json

/-- The digit of a number below sixteen. -/
def hexDigit (n : Nat) : Char :=
  if n < 10 then Char.ofNat ('0'.toNat + n) else Char.ofNat ('a'.toNat + (n - 10))

/-- One character inside a string. -/
def escapeChar (c : Char) : List Char :=
  match c with
  | '"' => ['\\', '"']
  | '\\' => ['\\', '\\']
  | '\x08' => ['\\', 'b']
  | '\t' => ['\\', 't']
  | '\n' => ['\\', 'n']
  | '\x0C' => ['\\', 'f']
  | '\r' => ['\\', 'r']
  | c =>
    if c.toNat < 0x20 then ['\\', 'u', '0', '0', hexDigit (c.toNat / 16), hexDigit (c.toNat % 16)]
    else [c]

/-- A string with its quotes. -/
def quote (s : String) : String :=
  String.ofList ('"' :: s.toList.flatMap escapeChar ++ ['"'])

mutual

/-- The value on one line, without blanks. -/
def compact : Json → String
  | .null => "null"
  | .bool true => "true"
  | .bool false => "false"
  | .number spelling => spelling
  | .string s => quote s
  | .array items => "[" ++ Text.joinWith "," (compactItems items) ++ "]"
  | .object fields => "\x7b" ++ Text.joinWith "," (compactFields fields) ++ "\x7d"
  | .unusable => "null"

/-- The items of an array, each on one line. -/
def compactItems : List Json → List String
  | [] => []
  | item :: items => compact item :: compactItems items

/-- The fields of an object, each on one line. -/
def compactFields : List (String × Json) → List String
  | [] => []
  | (name, value) :: fields => (quote name ++ ":" ++ compact value) :: compactFields fields

end

/-- The start of a line at a level. -/
def lineStart (level : Nat) : String := "\n" ++ String.ofList (List.replicate (2 * level) ' ')

mutual

/-- The value with one item or field a line, `level` levels inside. -/
def indented (level : Nat) : Json → String
  | .array [] => "[]"
  | .array items =>
    "[" ++ Text.joinWith "," (indentedItems (level + 1) items) ++ lineStart level ++ "]"
  | .object [] => "\x7b\x7d"
  | .object fields =>
    "\x7b" ++ Text.joinWith "," (indentedFields (level + 1) fields) ++ lineStart level ++ "\x7d"
  | .null => "null"
  | .bool true => "true"
  | .bool false => "false"
  | .number spelling => spelling
  | .string s => quote s
  | .unusable => "null"

/-- The items of an array, each on a line of its own. -/
def indentedItems (level : Nat) : List Json → List String
  | [] => []
  | item :: items => (lineStart level ++ indented level item) :: indentedItems level items

/-- The fields of an object, each on a line of its own. -/
def indentedFields (level : Nat) : List (String × Json) → List String
  | [] => []
  | (name, value) :: fields =>
    (lineStart level ++ quote name ++ ": " ++ indented level value) :: indentedFields level fields

end

/-- The value with one item or field a line. -/
def pretty (j : Json) : String := indented 0 j

end Stencil.Json
