import Stencil.Json.Basic
import Stencil.Text.CharClass

/-!
# Reading JSON

The grammar is the strict one: no comments, no trailing commas, no byte order mark, no leading
zeros, nothing but blanks behind the value. Two limits are not syntax but make a value unusable:
a surrogate escape without its partner, and too many levels of nesting.

Reading is bounded by fuel. Between two uses of fuel on the same text at least one character is
taken, so twice the length of the text is enough.
-/

namespace Stencil.Json

/-- A blank of the grammar. -/
def isBlank (c : Char) : Bool := c == ' ' || c == '\n' || c == '\t' || c == '\r'

/-- The text without the blanks at its front. -/
def skipBlanks (cs : List Char) : List Char := cs.dropWhile isBlank

/-! ## Strings -/

/-- The character that a backslash and one other character denote, apart from `\u`. -/
def escaped? : Char → Option Char
  | '"' => some '"'
  | '\\' => some '\\'
  | '/' => some '/'
  | 'b' => some '\x08'
  | 'f' => some '\x0C'
  | 'n' => some '\n'
  | 'r' => some '\r'
  | 't' => some '\t'
  | _ => none

/-- Whether the number is the first half of a surrogate pair. -/
def isHighSurrogate (n : Nat) : Bool := 0xD800 ≤ n && n < 0xDC00

/-- Whether the number is the second half of a surrogate pair. -/
def isLowSurrogate (n : Nat) : Bool := 0xDC00 ≤ n && n < 0xE000

/-- The character of a surrogate pair. -/
def ofSurrogates (high low : Nat) : Char :=
  Char.ofNat (0x10000 + (high - 0xD800) * 0x400 + (low - 0xDC00))

/-- A text read so far, which `none` marks as spoilt by half of a pair. -/
abbrev Spelled := Option (List Char)

/-- The result of reading with one more character in front. -/
def Spelled.push (c : Char) (result : Spelled × List Char) : Spelled × List Char :=
  (result.1.map (c :: ·), result.2)

/-- The result of reading, spoilt if `broken`. -/
def Spelled.spoilIf (broken : Bool) (result : Spelled × List Char) : Spelled × List Char :=
  (if broken then none else result.1, result.2)

/-- Reads a string up to its closing quote. `high` is the first half of a pair read just before. -/
def text : (high : Option Nat) → List Char → Option (Spelled × List Char)
  | _, [] => none
  | high, c :: cs =>
    if c = '"' then some (if high.isSome then none else some [], cs)
    else if c.toNat < 0x20 then none
    else if c ≠ '\\' then
      (text none cs).map fun r => Spelled.spoilIf high.isSome (Spelled.push c r)
    else
      match cs with
      | 'u' :: d₁ :: d₂ :: d₃ :: d₄ :: rest =>
        if [d₁, d₂, d₃, d₄].all Text.isHexDigit then
          let n := Text.hexValue [d₁, d₂, d₃, d₄]
          match high, isLowSurrogate n with
          | some h, true => (text none rest).map (Spelled.push (ofSurrogates h n))
          | high, low =>
            if isHighSurrogate n then
              (text (some n) rest).map (Spelled.spoilIf high.isSome)
            else
              (text none rest).map fun r =>
                Spelled.spoilIf (high.isSome || low) (Spelled.push (Char.ofNat n) r)
        else none
      | e :: rest =>
        match escaped? e with
        | some v => (text none rest).map fun r => Spelled.spoilIf high.isSome (Spelled.push v r)
        | none => none
      | [] => none

/-! ## Numbers -/

/-- Reads a run of at least one digit. -/
def digits? (cs : List Char) : Option (List Char × List Char) :=
  match cs.takeWhile Char.isDigit with
  | [] => none
  | ds => some (ds, cs.dropWhile Char.isDigit)

/-- Reads the whole part of a number: a zero, or digits that do not start with one. -/
def whole? : List Char → Option (List Char × List Char)
  | '0' :: cs => if (digits? cs).isSome then none else some (['0'], cs)
  | cs => digits? cs

/-- Reads the point and the digits behind it, if there is a point. -/
def fraction? : List Char → Option (List Char × List Char)
  | '.' :: cs => (digits? cs).map fun (ds, rest) => ('.' :: ds, rest)
  | cs => some ([], cs)

/-- Reads the exponent, if there is one. -/
def exponent? : List Char → Option (List Char × List Char)
  | e :: cs =>
    if e = 'e' || e = 'E' then
      match cs with
      | s :: rest =>
        if s = '+' || s = '-' then (digits? rest).map fun (ds, rest) => (e :: s :: ds, rest)
        else (digits? cs).map fun (ds, rest) => (e :: ds, rest)
      | [] => none
    else some ([], e :: cs)
  | [] => some ([], [])

/-- Reads a number. -/
def number? (cs : List Char) : Option (Json × List Char) := do
  let (sign, cs) := match cs with
    | '-' :: rest => (['-'], rest)
    | cs => ([], cs)
  let (whole, cs) ← whole? cs
  let (fraction, cs) ← fraction? cs
  let (exponent, cs) ← exponent? cs
  return (.number (String.ofList (sign ++ whole ++ fraction ++ exponent)), cs)

/-! ## Values -/

/-- Reads a given word. -/
def word? (word : String) (value : Json) (cs : List Char) : Option (Json × List Char) :=
  if word.toList.isPrefixOf cs then some (value, cs.drop word.length) else none

/-- A container, or an unusable value if it is nested too deeply. -/
def atDepth (limit depth : Nat) (value : Json) : Json :=
  if limit < depth then .unusable else value

mutual

/-- Reads a value inside `depth` containers, of which `limit` are allowed. -/
def value? (limit : Nat) : (fuel depth : Nat) → List Char → Option (Json × List Char)
  | 0, _, _ => none
  | fuel + 1, depth, cs =>
    match skipBlanks cs with
    | '"' :: rest =>
      (text none rest).map fun (spelled, rest) =>
        (match spelled with
          | some s => .string (String.ofList s)
          | none => .unusable, rest)
    | '[' :: rest =>
      match skipBlanks rest with
      | ']' :: rest => some (atDepth limit (depth + 1) (.array []), rest)
      | rest =>
        (items? limit fuel (depth + 1) rest).map fun (items, rest) =>
          (atDepth limit (depth + 1) (.array items), rest)
    | '\x7b' :: rest =>
      match skipBlanks rest with
      | '\x7d' :: rest => some (atDepth limit (depth + 1) (.object []), rest)
      | rest =>
        (members? limit fuel (depth + 1) rest).map fun (fields, rest) =>
          (match fields with
            | some fields => atDepth limit (depth + 1) (.object fields)
            | none => .unusable, rest)
    | 't' :: rest => word? "rue" (.bool true) rest
    | 'f' :: rest => word? "alse" (.bool false) rest
    | 'n' :: rest => word? "ull" .null rest
    | cs => number? cs

/-- Reads the items of an array and its closing bracket. -/
def items? (limit : Nat) : (fuel depth : Nat) → List Char → Option (List Json × List Char)
  | 0, _, _ => none
  | fuel + 1, depth, cs => do
    let (item, rest) ← value? limit fuel depth cs
    match skipBlanks rest with
    | ',' :: rest => do
      let (items, rest) ← items? limit fuel depth rest
      return (item :: items, rest)
    | ']' :: rest => return ([item], rest)
    | _ => none

/-- Reads the fields of an object and its closing brace. There are no fields if a key is spoilt. -/
def members? (limit : Nat) :
    (fuel depth : Nat) → List Char → Option (Option (List (String × Json)) × List Char)
  | 0, _, _ => none
  | fuel + 1, depth, cs =>
    match skipBlanks cs with
    | '"' :: rest => do
      let (name, rest) ← text none rest
      match skipBlanks rest with
      | ':' :: rest => do
        let (value, rest) ← value? limit fuel depth rest
        let field := name.map fun name => (String.ofList name, value)
        match skipBlanks rest with
        | ',' :: rest => do
          let (fields, rest) ← members? limit fuel depth rest
          return (do return (← field) :: (← fields), rest)
        | '\x7d' :: rest => return (field.map ([·]), rest)
        | _ => none
      | _ => none
    | _ => none

end

/-- The value a text spells, with at most `limit` containers inside one another. -/
def readNested? (limit : Nat) (s : String) : Option Json :=
  match value? limit (2 * s.length + 2) 0 s.toList with
  | some (value, rest) => if (skipBlanks rest).isEmpty then some value else none
  | none => none

/-- How many containers may be inside one another in a file. -/
def nestingLimit : Nat := 127

/-- The value a text spells. -/
def read? (s : String) : Option Json := readNested? nestingLimit s

end Stencil.Json
