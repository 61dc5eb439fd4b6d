import Stencil.Proofs.Expr.Soundness

/-!
# What may stand behind an expression

An expression of a level ends where the next token belongs to a lower one. `Cursor.grip` is the level
that goes on at a cursor: that of the operator that is found there, a high one for what continues a
chain, none for a closing bracket or the end.

`Finds` states of a reader of the operators of one level what its loop has to know: below the level no
operator is found, and an operator of the grammar is found where it stands, in front of an operand. It
is shown for every level: `finds_sign?` and `finds_signOf?` for those whose operators are single
signs, `finds_comparison` and `finds_shift` for the two where the signs that start with a `>` meet. A
lexer that reads types, too, gives each `>` by itself, so `>>`, `>>>`, `>=` and `>>=` are put together
of signs that touch, and whether a `>` is a comparison depends on what stands behind it
(`grip_of_areSigns` says that the grip at an operator is its level).

**What it does not establish.** The grip of a cursor before something that is no operator is chosen so
that the statements of Proofs/Expr/Completeness hold; it means nothing by itself.
-/

namespace Stencil

open Stencil.Expr (startsWith)

/-- Signs that touch are the first of them, and the others, which touch it. -/
theorem Token.areSigns_cons {s : Sign} {ss : List Sign} {os : List Token} :
    AreSigns (s :: ss) os ↔ ∃ span ts, os = ⟨.sign s, span⟩ :: ts ∧
      (∀ u, ts.head? = some u → touches ⟨.sign s, span⟩ u = true) ∧ AreSigns ss ts := by
  constructor
  · intro h
    cases os with
    | nil => cases h
    | cons t ts =>
      obtain ⟨l, span⟩ := t
      obtain ⟨hl, htouch, hrest⟩ := h
      obtain rfl : l = .sign s := hl
      exact ⟨span, ts, rfl, htouch, hrest⟩
  · rintro ⟨span, ts, rfl, htouch, hrest⟩
    exact ⟨rfl, htouch, hrest⟩

/-- No signs are no tokens. -/
theorem Token.areSigns_nil {os : List Token} : AreSigns [] os ↔ os = [] := by
  cases os <;> simp [AreSigns]

/-- One sign is one token. -/
theorem Token.areSigns_singleton {s : Sign} {os : List Token} :
    AreSigns [s] os ↔ ∃ span, os = [⟨.sign s, span⟩] := by
  simp [areSigns_cons, areSigns_nil]

/-- The level that goes on with the sign; 16 if nothing does. -/
def Sign.grip : Sign → Nat
  | plusPlus | minusMinus => 14
  | star | slash | percent => 12
  | plus | minus => 11
  | shiftLeft => 10
  | less | lessEqual | greater | greaterEqual => 9
  | equalEqual | bangEqual => 8
  | amp => 7
  | caret => 6
  | bar => 5
  | ampAmp => 4
  | barBar => 3
  | question => 2
  | bang | tilde => 16
  | _ => 1

/-- The level that goes on with the lexeme: 0 behind the end of an expression, 16 where a call or the
operand of a cast would start. -/
def Lexeme.grip : Lexeme → Nat
  | sign s => s.grip
  | keyword .instanceOf => 9
  | punctuation p => if p = '(' then 16 else if p = '.' ∨ p = '[' then 15 else 0
  | l => if l.startsOperand then 16 else 0

namespace Cursor

/-- The level that goes on at the cursor. A `>` may be the first of several. -/
def grip (c : Cursor) : Nat :=
  match c.next? with
  | none => 0
  | some l =>
    if l = .sign .greater then
      if c.shiftOperator?.isSome then 10 else if c.assignOperator?.isSome then 1 else 9
    else l.grip

variable {c c₁ c' : Cursor} {l : Lexeme} {level : Nat}

/-- The grip is that of the next lexeme, a `>` apart. -/
theorem grip_eq (h : c.next? = some l) (hne : l ≠ .sign .greater) : c.grip = l.grip := by
  rw [grip, h]
  exact if_neg hne

/-- The next lexeme keeps the grip below a level, a `>` apart. -/
theorem Takes.grip_lt {s : Span} {ts : List Token} (h : c.Takes (⟨l, s⟩ :: ts) c')
    (hgrip : l.grip < level) (hne : l ≠ .sign .greater) : c.grip < level := by
  rwa [grip_eq h.next? hne]

/-- At a `>` the grip is that of a shift, an assignment or a comparison, whichever is found. -/
theorem grip_of_next? (h : c.next? = some (.sign .greater)) :
    c.grip = if c.shiftOperator?.isSome then 10 else if c.assignOperator?.isSome then 1 else 9 := by
  rw [grip, h]
  exact if_pos rfl

/-- A lexeme with a tighter grip than the cursor is not the next one. -/
theorem next?_ne (h : c.grip < l.grip) (hne : l ≠ .sign .greater) : c.next? ≠ some l := by
  intro hnext
  rw [grip_eq hnext hne] at h
  exact Nat.lt_irrefl _ h

/-- The next lexeme is that of the first token. -/
theorem next?_of_tokens {t : Token} {rest : List Token} (h : c.tokens = t :: rest) :
    c.next? = some t.lexeme := by
  rw [next?, h]
  rfl

/-- No operator is found if the next sign is none. -/
theorem signOf?_eq_none {α : Type} {f : Sign → Option α} :
    c.signOf? f = none ↔ ∀ s, c.next? = some (.sign s) → f s = none := by
  rw [signOf?, next?]
  cases c.tokens with
  | nil => simp
  | cons t rest =>
    obtain ⟨l, span⟩ := t
    cases l <;> simp

/-- What starts an operand has the highest grip. -/
theorem grip_of_startsOperand (h : l.startsOperand = true) : l.grip = 16 := by
  cases l with
  | keyword k => cases k <;> first | rfl | cases h
  | sign s =>
    cases s with
    | bang | tilde => rfl
    | _ => cases h
  | punctuation p =>
    obtain rfl : p = '(' := by simpa [Lexeme.startsOperand] using h
    rfl
  | _ => rfl

/-- Below the highest grip, no operand starts. -/
theorem startsOperand_eq_false (h : c.grip < 16) : c.startsOperand = false := by
  rw [startsOperand_eq]
  cases hl : c.next? with
  | none => rfl
  | some l =>
    rw [Option.map_some, Option.getD_some, Bool.eq_false_iff]
    intro hstarts
    have hne : l ≠ .sign .greater := by
      rintro rfl
      cases hstarts
    rw [grip_eq hl hne, grip_of_startsOperand hstarts] at h
    exact Nat.lt_irrefl _ h

/-! ## Assignment operators -/

/-- A sign has a grip. -/
theorem one_le_grip {s : Sign} (h : c.next? = some (.sign s)) : 1 ≤ c.grip := by
  by_cases hs : s = .greater
  · rw [grip_of_next? (hs ▸ h)]
    split
    · decide
    · split <;> decide
  · rw [grip_eq h (by simpa using hs)]
    cases s <;> decide

/-- Without a grip there is no assignment operator. -/
theorem assignOperator?_eq_none (h : c.grip < 1) : c.assignOperator? = none := by
  cases hop : c.assignOperator? with
  | none => rfl
  | some r =>
    obtain ⟨op, c'⟩ := r
    obtain ⟨os, htakes, hsigns⟩ := Grammar.areSigns_of_assignOperator? hop
    have hfirst : ∃ s, c.next? = some (.sign s) := by
      cases os with
      | nil => cases op <;> cases hsigns
      | cons t os =>
        rw [htakes.next?]
        cases op <;> exact ⟨_, congrArg some hsigns.1⟩
    obtain ⟨s, hs⟩ := hfirst
    exact absurd (one_le_grip hs) (Nat.not_le.2 h)

/-- An assignment operator of one sign is found where it stands. -/
theorem assignOperator?_of_sign {op : AssignOp} {s : Sign} {span : Span}
    (h : c.Takes [⟨.sign s, span⟩] c') (hop : assignSign? s = some op) :
    c.assignOperator? = some (op, c') ∧ c.grip = 1 := by
  have hne : s ≠ .greater := by
    rintro rfl
    cases hop
  have hfirst {t : Token} {rest : List Token} (htokens : c.tokens = t :: rest) :
      t.lexeme ≠ .sign .greater := by
    rw [h.tokens_cons] at htokens
    rw [← (List.cons.inj htokens).1]
    simpa using hne
  refine ⟨?_, ?_⟩
  · unfold assignOperator?
    split
    · next htokens => exact absurd rfl (hfirst htokens)
    · next htokens => exact absurd rfl (hfirst htokens)
    · exact signOf?_eq_some.2 ⟨s, span, hop, h⟩
  · rw [grip_eq h.next? (by simpa using hne)]
    cases s <;> cases hop <;> rfl

/-- An assignment operator is found where its signs stand. -/
theorem assignOperator?_of_areSigns {op : AssignOp} {os : List Token} (h : c.Takes os c')
    (hsigns : Token.AreSigns op.signs os) : c.assignOperator? = some (op, c') ∧ c.grip = 1 := by
  cases op with
  | rightShift =>
    obtain ⟨s₁, ts, rfl, htouch, hsigns⟩ := Token.areSigns_cons.1 hsigns
    obtain ⟨s₂, rfl⟩ := Token.areSigns_singleton.1 hsigns
    have htouch := htouch _ rfl
    have htokens : c.tokens = ⟨.sign .greater, s₁⟩ :: ⟨.sign .greaterEqual, s₂⟩ :: c'.tokens :=
      h.tokens
    have hassign : c.assignOperator? = some (.rightShift, c') := by
      rw [assignOperator?, htokens]
      simp only [htouch, if_true]
      rw [← show c'.lastEnd = s₂.stop from h.lastEnd]
    refine ⟨hassign, ?_⟩
    rw [grip_of_next? h.next?, hassign, shiftOperator?, htokens]
    rfl
  | unsignedRightShift =>
    obtain ⟨s₁, ts, rfl, htouch, hsigns⟩ := Token.areSigns_cons.1 hsigns
    obtain ⟨s₂, ts, rfl, htouch', hsigns⟩ := Token.areSigns_cons.1 hsigns
    obtain ⟨s₃, rfl⟩ := Token.areSigns_singleton.1 hsigns
    have htouch := htouch _ rfl
    have htouch' := htouch' _ rfl
    have htokens : c.tokens = ⟨.sign .greater, s₁⟩ :: ⟨.sign .greater, s₂⟩ ::
        ⟨.sign .greaterEqual, s₃⟩ :: c'.tokens := h.tokens
    have hassign : c.assignOperator? = some (.unsignedRightShift, c') := by
      rw [assignOperator?, htokens]
      simp only [htouch, htouch', Bool.and_self, if_true]
      rw [← show c'.lastEnd = s₃.stop from h.lastEnd]
    have hshift : c.shiftOperator? = none := by
      rw [shiftOperator?, htokens]
      simp only [htouch, htouch', if_true]
    rw [grip_of_next? h.next?, hassign, hshift]
    exact ⟨rfl, rfl⟩
  | _ =>
    obtain ⟨span, rfl⟩ := Token.areSigns_singleton.1 hsigns
    exact assignOperator?_of_sign h rfl

/-! ## Signs that start with a `>` -/

/-- A `>` in front of an expression is no assignment operator. -/
theorem assignOperator?_greater {span : Span} (h : c.Takes [⟨.sign .greater, span⟩] c₁)
    (hl : c₁.next? = some l) (hstarts : startsWith l = true) : c.assignOperator? = none := by
  have hnext {t u : Token} {rest : List Token} (htokens : c.tokens = t :: u :: rest) :
      u.lexeme = l := by
    rw [h.tokens_cons] at htokens
    rw [next?_of_tokens (List.cons.inj htokens).2] at hl
    exact Option.some.inj hl
  unfold assignOperator?
  split
  · next htokens =>
    obtain rfl := hnext htokens
    cases hstarts
  · next htokens =>
    obtain rfl := hnext htokens
    cases hstarts
  · rw [signOf?, h.tokens_cons]
    rfl

/-- A `>` in front of an expression is no shift. -/
theorem shiftOperator?_greater {span : Span} (h : c.Takes [⟨.sign .greater, span⟩] c₁)
    (hl : c₁.next? = some l) (hstarts : startsWith l = true) : c.shiftOperator? = none := by
  unfold shiftOperator?
  split
  · next htokens =>
    rw [h.tokens_cons] at htokens
    cases (List.cons.inj htokens).1
  · next htokens =>
    rw [h.tokens_cons] at htokens
    rw [next?_of_tokens (List.cons.inj htokens).2] at hl
    obtain rfl := Option.some.inj hl
    cases hstarts
  · rfl

end Cursor

namespace Grammar

open Cursor

/-- The operators of the level are found where an operand follows, and none where a lower level
goes on. -/
structure Finds (level : Nat) (operator? : Cursor → Option (BinaryOp × Cursor)) : Prop where
  none : ∀ c, c.grip < level → operator? c = none
  some : ∀ c op os c₁ l, op.level = level → c.Takes os c₁ → Token.AreSigns op.signs os →
    c₁.next? = some l → startsWith l = true → operator? c = some (op, c₁)

/-- A level whose operators are single signs. -/
theorem finds_signOf? {level : Nat} {f : Sign → Option BinaryOp}
    (hnone : ∀ s op, f s = some op → s.grip = level ∧ s ≠ .greater)
    (hsome : ∀ op, op.level = level → ∃ s, op.signs = [s] ∧ f s = some op) :
    Finds level (·.signOf? f) := by
  refine ⟨fun c hgrip => ?_, fun c op os c₁ l hlevel htakes hsigns _ _ => ?_⟩
  · refine signOf?_eq_none.2 fun s hs => ?_
    cases hop : f s with
    | none => rfl
    | some op =>
      obtain ⟨hlevel, hne⟩ := hnone s op hop
      rw [grip_eq hs (by simpa using hne)] at hgrip
      exact absurd hlevel (Nat.ne_of_lt hgrip)
  · obtain ⟨s, hone, hs⟩ := hsome op hlevel
    rw [hone] at hsigns
    obtain ⟨span, rfl⟩ := Token.areSigns_singleton.1 hsigns
    exact signOf?_eq_some.2 ⟨s, span, hs, htakes⟩

/-- A level with one operator, a single sign. -/
theorem finds_sign? {s : Sign} {op : BinaryOp} (hsigns : op.signs = [s])
    (hgrip : s.grip = op.level) (hne : s ≠ .greater)
    (honly : ∀ op' : BinaryOp, op'.level = op.level → op' = op) :
    Finds op.level fun c => (c.sign? s).map fun c => (op, c) := by
  refine ⟨fun c hlt => ?_, fun c op' os c₁ l hlevel htakes hos _ _ => ?_⟩
  · have hnext := @next?_ne c (.sign s) (show c.grip < s.grip from hgrip ▸ hlt) (by simpa using hne)
    rw [sign?_eq_none.2 hnext, Option.map_none]
  · obtain rfl := honly op' hlevel
    rw [hsigns] at hos
    obtain ⟨span, rfl⟩ := Token.areSigns_singleton.1 hos
    rw [sign?_eq_some.2 ⟨span, htakes⟩, Option.map_some]

/-- Shifts are found where the grip is theirs. -/
theorem grip_of_shiftOperator? {c c' : Cursor} {op : BinaryOp}
    (h : c.shiftOperator? = some (op, c')) : c.grip = 10 := by
  obtain ⟨hlevel, os, htakes, hsigns⟩ := operators_shift c op c' h
  have hfirst : c.next? = some (.sign .shiftLeft) ∨ c.next? = some (.sign .greater) := by
    cases op with
    | leftShift | rightShift | unsignedRightShift =>
      obtain ⟨span, ts, rfl, -⟩ := Token.areSigns_cons.1 hsigns
      simp [htakes.next?]
    | _ => cases hlevel
  rcases hfirst with hnext | hnext
  · exact grip_eq hnext (by decide)
  · rw [grip_of_next? hnext, h]
    rfl

/-- The signs of a shift are one where an operand follows. -/
theorem shiftOperator?_of_areSigns {c c₁ : Cursor} {op : BinaryOp} {os : List Token} {l : Lexeme}
    (hlevel : op.level = 10) (htakes : c.Takes os c₁) (hsigns : Token.AreSigns op.signs os)
    (hl : c₁.next? = some l) (hstarts : startsWith l = true) :
    c.shiftOperator? = some (op, c₁) := by
  cases op with
  | leftShift =>
    obtain ⟨span, rfl⟩ := Token.areSigns_singleton.1 hsigns
    rw [shiftOperator?, htakes.tokens_cons]
    simp only
    rw [← htakes.stop_eq]
  | rightShift =>
    obtain ⟨s₁, ts, rfl, htouch, hsigns⟩ := Token.areSigns_cons.1 hsigns
    obtain ⟨s₂, rfl⟩ := Token.areSigns_singleton.1 hsigns
    have htouch := htouch _ rfl
    have hlast : c₁.lastEnd = s₂.stop := htakes.lastEnd
    rw [shiftOperator?, show c.tokens = ⟨.sign .greater, s₁⟩ :: ⟨.sign .greater, s₂⟩ :: c₁.tokens
      from htakes.tokens]
    simp only [htouch, if_true]
    -- A third `>` would have been taken as well, but what follows is none.
    split
    · next htokens =>
      rw [next?_of_tokens htokens] at hl
      obtain rfl := Option.some.inj hl
      cases hstarts
    · next htokens =>
      rw [next?_of_tokens htokens] at hl
      obtain rfl := Option.some.inj hl
      cases hstarts
    · rw [← hlast]
  | unsignedRightShift =>
    obtain ⟨s₁, ts, rfl, htouch, hsigns⟩ := Token.areSigns_cons.1 hsigns
    obtain ⟨s₂, ts, rfl, htouch', hsigns⟩ := Token.areSigns_cons.1 hsigns
    obtain ⟨s₃, rfl⟩ := Token.areSigns_singleton.1 hsigns
    have htouch := htouch _ rfl
    have htouch' := htouch' _ rfl
    have hlast : c₁.lastEnd = s₃.stop := htakes.lastEnd
    rw [shiftOperator?, show c.tokens = ⟨.sign .greater, s₁⟩ :: ⟨.sign .greater, s₂⟩ ::
      ⟨.sign .greater, s₃⟩ :: c₁.tokens from htakes.tokens]
    simp only [htouch, htouch', if_true]
    rw [← hlast]
  | _ => cases hlevel

/-- The level of the shifts. -/
theorem finds_shift : Finds 10 Cursor.shiftOperator? where
  none c hgrip := by
    cases hop : c.shiftOperator? with
    | none => rfl
    | some r => exact absurd (grip_of_shiftOperator? hop) (Nat.ne_of_lt hgrip)
  some _ _ _ _ _ := shiftOperator?_of_areSigns

/-- The level of the comparisons, where a `>` must be no part of a shift or an assignment. -/
theorem finds_comparison : Finds 9 comparison? := by
  -- First that nothing is found above the level, then that each comparison is found.
  refine ⟨fun c hgrip => ?_, fun c op os c₁ l hlevel htakes hsigns hl hstarts => ?_⟩
  · refine signOf?_eq_none.2 fun s hs => ?_
    have hne {s' : Sign} (hnine : s'.grip = 9) (hgreater : s' ≠ .greater) : s ≠ s' := by
      rintro rfl
      rw [grip_eq hs (by simpa using hgreater)] at hgrip
      exact absurd hnine (Nat.ne_of_lt hgrip)
    cases s with
    | less | lessEqual | greaterEqual => exact absurd rfl (hne rfl (by decide))
    | greater =>
      rw [grip_of_next? hs] at hgrip
      split at hgrip
      · exact absurd hgrip (by decide)
      · split at hgrip
        · next hassign =>
          refine if_neg ?_
          rwa [Option.isNone_iff_eq_none, ← ne_eq, ← Option.isSome_iff_ne_none]
        · exact absurd hgrip (by decide)
    | _ => rfl
  · have hone {s : Sign} (hsigns : Token.AreSigns [s] os) : ∃ span, c.Takes [⟨.sign s, span⟩] c₁ := by
      obtain ⟨span, rfl⟩ := Token.areSigns_singleton.1 hsigns
      exact ⟨span, htakes⟩
    cases op with
    | less | lessEqual | greaterEqual =>
      obtain ⟨span, htakes⟩ := hone hsigns
      exact signOf?_eq_some.2 ⟨_, span, rfl, htakes⟩
    | greater =>
      obtain ⟨span, htakes⟩ := hone hsigns
      refine signOf?_eq_some.2 ⟨.greater, span, ?_, htakes⟩
      rw [assignOperator?_greater htakes hl hstarts]
      rfl
    | _ => cases hlevel

/-- The grip at an operator is its level. -/
theorem grip_of_areSigns {c c₁ : Cursor} {op : BinaryOp} {os : List Token} {l : Lexeme}
    (h : c.Takes os c₁) (hsigns : Token.AreSigns op.signs os) (hl : c₁.next? = some l)
    (hstarts : startsWith l = true) : c.grip = op.level := by
  have hone {s : Sign} (hsigns : Token.AreSigns [s] os) : ∃ span, c.Takes [⟨.sign s, span⟩] c₁ := by
    obtain ⟨span, rfl⟩ := Token.areSigns_singleton.1 hsigns
    exact ⟨span, h⟩
  cases op with
  | greater =>
    obtain ⟨span, h⟩ := hone hsigns
    rw [grip_of_next? h.next?, assignOperator?_greater h hl hstarts,
      shiftOperator?_greater h hl hstarts]
    rfl
  | rightShift | unsignedRightShift =>
    have hshift := finds_shift.some c _ os c₁ l rfl h hsigns hl hstarts
    obtain ⟨s, ts, rfl, -⟩ := Token.areSigns_cons.1 hsigns
    rw [grip_of_next? h.next?, hshift]
    rfl
  | _ =>
    obtain ⟨span, h⟩ := hone hsigns
    exact grip_eq h.next? (by simp)

end Grammar

end Stencil
