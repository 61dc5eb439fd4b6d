import Stencil.Token.Basic
import Stencil.Text.Bytes
import Stencil.Text.CharClass

/-!
# Quoted literals

The body of a string or character literal, up to its closing quote. A backslash starts an escape:
one of nine letters and signs, or `u` with the four digits of a code point. A line never ends inside
a literal.
-/

namespace Stencil.Quoted

/-- What a backslash and one character denote, apart from `\u`. -/
def simpleEscape? : Char → Option Char
  | 'n' => some '\n'
  | 't' => some '\t'
  | 'r' => some '\r'
  | 'b' => some '\x08'
  | 'f' => some '\x0C'
  | '0' => some '\x00'
  | '\'' => some '\''
  | '"' => some '"'
  | '\\' => some '\\'
  | _ => none

/-- The number that hexadecimal digits spell. A plus sign may stand in front of them. -/
def radixValue? (text : List Char) : Option Nat :=
  let digits := match text with
    | '+' :: rest => rest
    | other => other
  if digits.isEmpty || !digits.all Text.isHexDigit then none else some (Text.hexValue digits)

/-- What the four characters after `\u` denote. -/
def unicodeEscape? (digits : List Char) : Option Char :=
  (radixValue? digits).bind Text.scalar?

/-- The four bytes after `\u` as a message quotes them; nothing if they are no whole characters. -/
def quotedDigits (text : List Char) : String :=
  let digits := Text.takeBytes 4 text
  if Text.byteSize digits = 4 then String.ofList digits else ""

/-- The result of a reader with one more character in front of the denoted text. -/
def push (v : Char) (result : List Char × List Char) : List Char × List Char :=
  (v :: result.1, result.2)

/-- Reads up to the closing `quote`. The result is the denoted text and what follows the quote, or a
fault and what follows the place where reading stopped. -/
def scan (quote : Char) : List Char → Except (LexFault × List Char) (List Char × List Char)
  | [] => .error (.unterminatedQuote, [])
  | c :: cs =>
    if c = '\n' || c = '\r' then .error (.unterminatedQuote, c :: cs)
    else if c = quote then .ok ([], cs)
    else if c ≠ '\\' then (scan quote cs).map (push c)
    else
      match cs with
      | [] => .error (.escape '\x00', [])
      | e :: es =>
        if e = 'u' then
          match es with
          | d₁ :: d₂ :: d₃ :: d₄ :: rest =>
            match unicodeEscape? [d₁, d₂, d₃, d₄] with
            | some v => (scan quote rest).map (push v)
            | none => .error (.unicodeEscape (quotedDigits es), e :: es)
          | _ => .error (.unicodeEscape (quotedDigits es), e :: es)
        else
          match simpleEscape? e with
          | some v => (scan quote es).map (push v)
          | none => .error (.escape e, e :: es)

/-- A reader that succeeds with a character in front of its result succeeds without it. -/
theorem ok_of_map_push {v : Char} {r : Except (LexFault × List Char) (List Char × List Char)}
    {value rest : List Char} (h : r.map (push v) = .ok (value, rest)) :
    ∃ tail, value = v :: tail ∧ r = .ok (tail, rest) := by
  cases r with
  | error e => simp [Except.map] at h
  | ok r =>
    simp only [Except.map, push, Except.ok.injEq, Prod.mk.injEq] at h
    exact ⟨r.1, h.1.symm, by rw [← h.2]⟩

/-- What follows the closing quote is a suffix of what was read. -/
theorem suffix_of_scan {quote : Char} {cs value rest : List Char}
    (h : scan quote cs = .ok (value, rest)) : rest <:+ cs := by
  fun_induction scan quote cs generalizing value with
  | case3 cs =>
    obtain ⟨-, rfl⟩ : [] = value ∧ cs = rest := by simpa using h
    exact List.suffix_cons _ _
  | case4 c cs _ _ _ ih =>
    obtain ⟨_, _, ht⟩ := ok_of_map_push h
    exact (ih ht).trans (List.suffix_cons _ _)
  | case6 c _ _ _ d₁ d₂ d₃ d₄ tail _ _ ih =>
    obtain ⟨_, _, ht⟩ := ok_of_map_push h
    exact (ih ht).trans ⟨[c, 'u', d₁, d₂, d₃, d₄], rfl⟩
  | case9 c _ _ _ e es _ _ _ ih =>
    obtain ⟨_, _, ht⟩ := ok_of_map_push h
    exact (ih ht).trans ⟨[c, e], rfl⟩
  | _ => simp at h

end Stencil.Quoted
