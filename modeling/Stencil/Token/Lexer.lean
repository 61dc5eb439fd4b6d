import Stencil.Token.Number
import Stencil.Token.Quoted

/-!
# Reading tokens

`step` reads the one lexeme that stands at the front of a text; `Token.read` reads a whole text.
Blanks separate lexemes and mean nothing else. Reading ends with the text or with the first fault:
nothing behind a fault would be meaningful.

Every reader of this module says where it stopped by what it leaves unread. Offsets enter only when
tokens are made, as the bytes of the whole text less the bytes still unread. `length_of_step` says that
a lexeme always takes something from the text.
-/

namespace Stencil

/-- What stands at the front of a text. -/
inductive Step
  /-- A lexeme and what follows it. -/
  | lexeme (read : Lexeme) (rest : List Char)
  /-- A fault, with the text from where it lies and the text from where reading stopped. -/
  | fault (cause : LexFault) (start rest : List Char)
  deriving DecidableEq, Repr

namespace Step

/-- A sign that may have an equals sign behind it, and then means an assignment. -/
def assignable (plain assigned : Sign) : List Char → Step
  | '=' :: cs => .lexeme (.sign assigned) cs
  | cs => .lexeme (.sign plain) cs

/-- The word at the front of the text, which starts with `c`. -/
def word (c : Char) (cs : List Char) : Step :=
  let name := String.ofList (c :: cs.takeWhile Text.isIdentifierPart)
  let rest := cs.dropWhile Text.isIdentifierPart
  match Keyword.ofText? name with
  | some keyword => .lexeme (.keyword keyword) rest
  | none => .lexeme (.identifier name) rest

/-- The number at the front of the text. -/
def number (cs : List Char) : Step :=
  match NumberLiteral.scan cs with
  | .ok rest =>
    .lexeme (.number (String.ofList (cs.take (cs.length - rest.length)))) rest
  | .error (.numericSeparator, rest) => .fault .numericSeparator rest rest
  | .error (cause, rest) => .fault cause cs rest

/-- The string literal at the front of the text; `cs` is what follows its first quote. -/
def string (cs : List Char) : Step :=
  match Quoted.scan '"' cs with
  | .ok (value, rest) => .lexeme (.string (String.ofList value)) rest
  | .error (cause, rest) => .fault cause ('"' :: cs) rest

/-- The character literal at the front of the text; `cs` is what follows its first quote. -/
def character (cs : List Char) : Step :=
  match Quoted.scan '\'' cs with
  | .ok ([value], rest) => .lexeme (.character value) rest
  | .ok (_, rest) => .fault .characterCount ('\'' :: cs) rest
  | .error (cause, rest) => .fault cause ('\'' :: cs) rest

/-- The operator at the front of the text, which starts with `c`; `cs` is what follows. -/
def operator (c : Char) (cs : List Char) : Step :=
  match c with
  | '+' => match cs with
    | '+' :: cs => .lexeme (.sign .plusPlus) cs
    | cs => assignable .plus .plusAssign cs
  | '-' => match cs with
    | '-' :: cs => .lexeme (.sign .minusMinus) cs
    | '>' :: rest => .fault .lambda ('-' :: cs) rest
    | cs => assignable .minus .minusAssign cs
  | '*' => assignable .star .starAssign cs
  | '/' => assignable .slash .slashAssign cs
  | '%' => assignable .percent .percentAssign cs
  | '^' => assignable .caret .caretAssign cs
  | '&' => match cs with
    | '&' :: cs => .lexeme (.sign .ampAmp) cs
    | cs => assignable .amp .ampAssign cs
  | '|' => match cs with
    | '|' :: cs => .lexeme (.sign .barBar) cs
    | cs => assignable .bar .barAssign cs
  | '<' => match cs with
    | '<' :: cs => assignable .shiftLeft .shiftLeftAssign cs
    | cs => assignable .less .lessEqual cs
  | '>' => assignable .greater .greaterEqual cs
  | '?' => .lexeme (.sign .question) cs
  | '~' => .lexeme (.sign .tilde) cs
  | '!' => assignable .bang .bangEqual cs
  | '=' => assignable .assign .equalEqual cs
  | c => .fault (.invalidCharacter c) (c :: cs) cs

/-- The single characters that are lexemes by themselves. A full stop is one too, unless a digit
follows it. -/
def isPunctuation (c : Char) : Bool :=
  ['(', ')', '[', ']', '\x7b', '\x7d', ',', ':', ';', '@', '.'].contains c

end Step

/-- What stands at the front of the text `c :: cs`. -/
def step (c : Char) (cs : List Char) : Step :=
  if Text.isIdentifierStart c then Step.word c cs
  else if c.isDigit || (c = '.' && NumberLiteral.startsWithDigit cs) then Step.number (c :: cs)
  else if Step.isPunctuation c then .lexeme (.punctuation c) cs
  else if c = '"' then Step.string cs
  else if c = '\'' then Step.character cs
  else Step.operator c cs

/-! ## Progress -/

namespace Step

theorem assignable_suffix {plain assigned : Sign} {cs rest : List Char} {l : Lexeme}
    (h : assignable plain assigned cs = .lexeme l rest) : rest <:+ cs := by
  unfold assignable at h
  split at h
  · obtain ⟨-, rfl⟩ := Step.lexeme.inj h
    exact List.suffix_cons _ _
  · obtain ⟨-, rfl⟩ := Step.lexeme.inj h
    exact List.suffix_refl _

theorem operator_suffix {c : Char} {cs rest : List Char} {l : Lexeme}
    (h : operator c cs = .lexeme l rest) : rest <:+ cs := by
  unfold operator at h
  split at h <;> try split at h
  all_goals first
    | exact assignable_suffix h
    | exact (assignable_suffix h).trans (List.suffix_cons _ _)
    | (obtain ⟨-, rfl⟩ := Step.lexeme.inj h; exact List.suffix_cons _ _)
    | (obtain ⟨-, rfl⟩ := Step.lexeme.inj h; exact List.suffix_refl _)
    | simp at h

theorem word_suffix {c : Char} {cs rest : List Char} {l : Lexeme}
    (h : word c cs = .lexeme l rest) : rest <:+ cs := by
  unfold word at h
  simp only at h
  split at h <;> obtain ⟨-, rfl⟩ := Step.lexeme.inj h <;> exact List.dropWhile_suffix _

theorem string_suffix {cs rest : List Char} {l : Lexeme}
    (h : string cs = .lexeme l rest) : rest <:+ cs := by
  unfold string at h
  split at h
  · next hs =>
    obtain ⟨-, rfl⟩ := Step.lexeme.inj h
    exact Quoted.suffix_of_scan hs
  · simp at h

theorem character_suffix {cs rest : List Char} {l : Lexeme}
    (h : character cs = .lexeme l rest) : rest <:+ cs := by
  unfold character at h
  split at h
  · next hs =>
    obtain ⟨-, rfl⟩ := Step.lexeme.inj h
    exact Quoted.suffix_of_scan hs
  · simp at h
  · simp at h

theorem number_suffix {c : Char} {cs rest : List Char} {l : Lexeme}
    (hc : c.isDigit ∨ c = '.') (h : number (c :: cs) = .lexeme l rest) : rest <:+ cs := by
  unfold number at h
  split at h
  · next hs =>
    obtain ⟨-, rfl⟩ := Step.lexeme.inj h
    exact NumberLiteral.suffix_of_scan hc hs
  · simp at h
  · simp at h

end Step

/-- A lexeme takes at least the character in front. -/
theorem suffix_of_step {c : Char} {cs rest : List Char} {l : Lexeme}
    (h : step c cs = .lexeme l rest) : rest <:+ cs := by
  unfold step at h
  split at h
  · exact Step.word_suffix h
  split at h
  · next hc => exact Step.number_suffix (by simp at hc; exact hc.imp_right And.left) h
  split at h
  · obtain ⟨-, rfl⟩ := Step.lexeme.inj h
    exact List.suffix_refl _
  split at h
  · exact Step.string_suffix h
  split at h
  · exact Step.character_suffix h
  · exact Step.operator_suffix h

theorem length_of_step {c : Char} {cs rest : List Char} {l : Lexeme}
    (h : step c cs = .lexeme l rest) : rest.length < (c :: cs).length :=
  Nat.lt_succ_of_le (suffix_of_step h).length_le

/-! ## Whole texts -/

namespace Token

/-- The tokens of the text `cs`, the end of a text of `size` bytes, up to the first fault. -/
def readFrom (size : Nat) (cs : List Char) : List Token × Option LexError :=
  match hcs : cs.dropWhile Text.isBlank with
  | [] => ([], none)
  | c :: tail =>
    match hs : step c tail with
    | .lexeme lexeme rest =>
      let span := ⟨size - Text.byteSize (c :: tail), size - Text.byteSize rest⟩
      have : rest.length < cs.length :=
        Nat.lt_of_lt_of_le (length_of_step hs)
          (hcs ▸ (List.dropWhile_suffix Text.isBlank).length_le)
      let (tokens, error) := readFrom size rest
      (⟨lexeme, span⟩ :: tokens, error)
    | .fault cause start rest =>
      ([], some ⟨cause, ⟨size - Text.byteSize start, size - Text.byteSize rest⟩⟩)
termination_by cs.length

/-- The tokens of a text up to its first fault, and the fault. -/
def read (input : String) : List Token × Option LexError :=
  readFrom input.utf8ByteSize input.toList

/-- The tokens of a text, if it has no fault. -/
def readAll (input : String) : Except LexError (List Token) :=
  match read input with
  | (tokens, none) => .ok tokens
  | (_, some error) => .error error

end Token

end Stencil
