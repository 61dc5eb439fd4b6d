import Stencil.Proofs.Basic
import Stencil.Token.Cursor

/-!
# What a cursor passes over

A parser of expressions or types stands before the tokens that are left, and remembers where the last
token ended. `c.Takes ts c'` says that the tokens `ts` stand between two cursors. What every reader of
a single token does is said with it once, as an equivalence: `lexeme?_eq_some`,
`punctuation?_eq_some`, `sign?_eq_some`, `keyword?_eq_some`, `identifier_eq_ok`, and the failures
beside them. One direction is used when a parser is sound, the other when it is complete.

The relation is one of lists: tokens can be put together (`Takes.trans`), cut (`Takes.split`,
`Takes.uncons`), and two cursors behind the same tokens are the same (`Takes.det`). A cursor behind
other tokens has fewer left (`Takes.length_le`), which is what ends the parsers.

**What it does not establish.** A token is looked at as a lexeme with a span; that the span is where
the lexeme stands in a text is shown in Proofs/Token/Coverage.
-/

namespace Stencil

/-- Where the tokens end; `start` if there are none. -/
def Token.endOf (start : Nat) (ts : List Token) : Nat :=
  (ts.getLast?.map (·.span.stop)).getD start

namespace Cursor

/-- The tokens `ts` stand between the cursors. -/
structure Takes (c : Cursor) (ts : List Token) (c' : Cursor) : Prop where
  tokens : c.tokens = ts ++ c'.tokens
  lastEnd : c'.lastEnd = Token.endOf c.lastEnd ts

/-- The next lexeme. -/
def next? (c : Cursor) : Option Lexeme := c.tokens.head?.map (·.lexeme)

variable {c c' c'' : Cursor} {t : Token} {ts us : List Token} {l : Lexeme}

theorem Takes.refl (c : Cursor) : c.Takes [] c := ⟨rfl, rfl⟩

/-- Tokens between three cursors, put together. -/
theorem Takes.trans (h : c.Takes ts c') (h' : c'.Takes us c'') : c.Takes (ts ++ us) c'' := by
  refine ⟨by rw [h.tokens, h'.tokens, List.append_assoc], ?_⟩
  rw [h'.lastEnd, h.lastEnd, Token.endOf, Token.endOf, Token.endOf, List.getLast?_append]
  cases us.getLast? <;> rfl

/-- Where the tokens between two cursors are cut, there stands a cursor. -/
theorem Takes.split (h : c.Takes (ts ++ us) c'') : ∃ c', c.Takes ts c' ∧ c'.Takes us c'' := by
  refine ⟨⟨us ++ c''.tokens, Token.endOf c.lastEnd ts⟩,
    ⟨by rw [h.tokens, List.append_assoc], rfl⟩, rfl, ?_⟩
  rw [h.lastEnd, Token.endOf, Token.endOf, Token.endOf, List.getLast?_append]
  cases us.getLast? <;> rfl

/-- Behind the first of the tokens there stands a cursor. -/
theorem Takes.uncons (h : c.Takes (t :: us) c'') : ∃ c', c.Takes [t] c' ∧ c'.Takes us c'' :=
  (show c.Takes ([t] ++ us) c'' from h).split

theorem Takes.cons (h : c.Takes [t] c') (h' : c'.Takes us c'') : c.Takes (t :: us) c'' := h.trans h'

/-- The cursor behind given tokens is determined. -/
theorem Takes.det (h : c.Takes ts c') (h' : c.Takes ts c'') : c' = c'' := by
  have htokens := List.append_cancel_left (h.tokens.symm.trans h'.tokens)
  cases c'
  cases c''
  exact Cursor.mk.injEq .. ▸ ⟨htokens, h.lastEnd.trans h'.lastEnd.symm⟩

/-- No more tokens are passed than there are. -/
theorem Takes.length_le (h : c.Takes ts c') : ts.length ≤ c.tokens.length := by
  rw [h.tokens, List.length_append]
  exact Nat.le_add_right _ _

theorem Takes.tokens_cons (h : c.Takes [t] c') : c.tokens = t :: c'.tokens := h.tokens

theorem Takes.stop_eq (h : c.Takes [t] c') : c'.lastEnd = t.span.stop := h.lastEnd

/-- The next lexeme is that of the first token passed. -/
theorem Takes.next? (h : c.Takes (t :: us) c') : c.next? = some t.lexeme := by
  rw [Cursor.next?, h.tokens]
  rfl

/-- The first token that is left can be passed. -/
theorem takes_head {rest : List Token} (h : c.tokens = t :: rest) :
    c.Takes [t] ⟨rest, t.span.stop⟩ := ⟨h, rfl⟩

/-- A cursor starts where the next token does. -/
theorem Takes.start (h : c.Takes (t :: us) c') : c.start = t.span.start := by
  rw [Cursor.start, h.tokens]
  rfl

/-! ## Readers of one token -/

/-- A lexeme is taken if and only if a token of it is passed. -/
theorem lexeme?_eq_some : c.lexeme? l = some c' ↔ ∃ span, c.Takes [⟨l, span⟩] c' := by
  constructor
  · intro h
    unfold lexeme? at h
    split at h
    · next token rest htokens =>
      split at h
      · next heq =>
        obtain rfl := Option.some.inj h
        obtain ⟨lexeme, span⟩ := token
        obtain rfl : lexeme = l := heq
        exact ⟨span, takes_head htokens⟩
      · cases h
    · cases h
  · rintro ⟨span, h⟩
    rw [lexeme?, h.tokens]
    refine (if_pos rfl).trans (congrArg some ?_)
    exact (takes_head h.tokens).det h

/-- A lexeme is not taken if and only if it is not the next one. -/
theorem lexeme?_eq_none : c.lexeme? l = none ↔ c.next? ≠ some l := by
  rw [lexeme?, next?]
  cases c.tokens with
  | nil => simp
  | cons t rest => by_cases h : t.lexeme = l <;> simp [h]

/-- A punctuation character is taken if and only if its token is passed. -/
theorem punctuation?_eq_some {p : Char} :
    c.punctuation? p = some c' ↔ ∃ span, c.Takes [⟨.punctuation p, span⟩] c' := lexeme?_eq_some

/-- A punctuation character is not taken if and only if it is not next. -/
theorem punctuation?_eq_none {p : Char} :
    c.punctuation? p = none ↔ c.next? ≠ some (.punctuation p) := lexeme?_eq_none

/-- A sign is taken if and only if its token is passed. -/
theorem sign?_eq_some {s : Sign} : c.sign? s = some c' ↔ ∃ span, c.Takes [⟨.sign s, span⟩] c' :=
  lexeme?_eq_some

/-- A sign is not taken if and only if it is not next. -/
theorem sign?_eq_none {s : Sign} : c.sign? s = none ↔ c.next? ≠ some (.sign s) := lexeme?_eq_none

/-- A keyword is taken if and only if its token is passed. -/
theorem keyword?_eq_some {k : Keyword} :
    c.keyword? k = some c' ↔ ∃ span, c.Takes [⟨.keyword k, span⟩] c' := lexeme?_eq_some

/-- A keyword is not taken if and only if it is not next. -/
theorem keyword?_eq_none {k : Keyword} : c.keyword? k = none ↔ c.next? ≠ some (.keyword k) :=
  lexeme?_eq_none

/-- To stand at a punctuation character is to have it next. -/
theorem isAt_iff {p : Char} : c.isAt p = true ↔ c.next? = some (.punctuation p) := by
  rw [isAt, Option.isSome_iff_ne_none, ne_eq, punctuation?_eq_none, ne_eq, Classical.not_not]

/-- An expected character is found if and only if its token is passed. -/
theorem expect_eq_ok {p : Char} :
    c.expect p = .ok c' ↔ ∃ span, c.Takes [⟨.punctuation p, span⟩] c' := by
  rw [← punctuation?_eq_some, expect]
  cases c.punctuation? p <;> simp

/-- A name is read if and only if the token of an identifier is passed. -/
theorem identifier_eq_ok {name : String} :
    c.identifier = .ok (name, c') ↔ ∃ span, c.Takes [⟨.identifier name, span⟩] c' := by
  constructor
  · intro h
    unfold identifier at h
    split at h
    · next span rest htokens =>
      obtain ⟨rfl, rfl⟩ := Prod.mk.inj (Except.ok.inj h)
      exact ⟨_, takes_head htokens⟩
    · cases h
    · cases h
  · rintro ⟨span, h⟩
    rw [identifier, h.tokens]
    exact congrArg (fun c => Except.ok (name, c)) ((takes_head h.tokens).det h)

end Cursor

end Stencil
