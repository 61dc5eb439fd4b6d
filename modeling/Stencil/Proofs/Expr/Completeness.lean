import Stencil.Proofs.Expr.Parenthesis

/-!
# What the grammar of expressions derives, the reader reads

What the grammar derives, the reader reads: `Expr.ofTokens_of_derives`, and with the soundness **the
law** (`Expr.ofTokens_eq_ok`): the tokens that are read as an expression are exactly those that the
grammar derives it from.

An expression is read where nothing behind it goes on with its level; the grip of the cursor behind it
(Proofs/Expr/Grip) is lower. A level is complete (`Grammar.Complete`) if it reads every derived tree
of that level, or of a higher one, in front of such a cursor. As in the soundness, a reader `nested`
for what is in brackets is assumed to be complete, here for as many tokens as are left, and
`Nested.complete_ofDepth` is the induction.

The loops of the reader go through an expression from its first operand, while the tree grows from
there. `Reaches` says that some rounds lead from the first operand to the whole, which is where the
induction over the derivation and the rounds of the loop meet: `chainReaches`, `postfixReaches`,
`binaryReaches` and `relationalReaches` are one for each loop, with a lemma for each kind of round. A
class literal is special: it is read as a name whose last part is a reserved word, so its dotted name
is read as fields first (`reaches_of_dotted`).

**What it does not establish.** Nothing is said of the text: that the tokens come of one is for
Proofs/Token.
-/

namespace Stencil

open Stencil.Expr (Derives AreArguments startsWith)

/-- The cursor behind a token. -/
theorem Cursor.Takes.behind {c c' : Cursor} {t : Token} (h : c.Takes [t] c') :
    (⟨c'.tokens, t.span.stop⟩ : Cursor) = c' :=
  (takes_head h.tokens).det h

namespace Grammar

/-- Every expression of the level with at most `n` tokens is read where no such level goes on. -/
def Complete (n level : Nat) (p : Parser Expr) : Prop :=
  ∀ c ts e c', ts.length ≤ n → c.Takes ts c' → Derives ts e → level ≤ e.level → c'.grip < level →
    p c = .ok (e, c')

/-- The readers of nested expressions read those with at most `n` tokens. -/
structure Nested.Complete (n : Nat) (nested : Nested) : Prop where
  assignment : Grammar.Complete n 1 nested.assignment
  conditional : Grammar.Complete n 2 nested.conditional
  prefixed : Grammar.Complete n 13 nested.prefixed

variable {nested : Nested} {c c₁ c' : Cursor} {e : Expr} {n : Nat} {ts us : List Token}
  {parts : List (List Token × Expr)}

/-! ## Loops -/

/-- Some rounds of the loop lead from one expression to another, and no more than there are tokens
between. -/
def Reaches (rest : Nat → Expr → Parser Expr) (e₀ : Expr) (c₀ : Cursor) (e : Expr) (c : Cursor) :
    Prop :=
  ∃ k, k + c.tokens.length ≤ c₀.tokens.length ∧ ∀ n, rest (k + n) e₀ c₀ = rest n e c

variable {rest : Nat → Expr → Parser Expr} {e₀ : Expr} {c₀ : Cursor}

/-- No rounds lead to where the loop starts. -/
theorem Reaches.refl (rest : Nat → Expr → Parser Expr) (e : Expr) (c : Cursor) :
    Reaches rest e c e c := ⟨0, by omega, fun n => by rw [Nat.zero_add]⟩

/-- One round more. -/
theorem Reaches.step {d : Expr} (h : Reaches rest e₀ c₀ d c) (htakes : c.Takes ts c') (hne : ts ≠ [])
    (hround : ∀ n, rest (n + 1) d c = rest n e c') : Reaches rest e₀ c₀ e c' := by
  obtain ⟨k, hk, hrounds⟩ := h
  refine ⟨k + 1, ?_, fun n => ?_⟩
  · have hpos := List.length_pos_iff.2 hne
    rw [htakes.tokens, List.length_append] at hk
    omega
  · rw [← hround, ← hrounds]
    congr 1
    omega

/-- A loop that can go no further ends with what it reached. -/
theorem Reaches.stop (h : Reaches rest e₀ c₀ e c') (hstop : ∀ n, rest n e c' = .ok (e, c')) :
    rest c₀.tokens.length e₀ c₀ = .ok (e, c') := by
  obtain ⟨k, hk, hrounds⟩ := h
  obtain ⟨n, hn⟩ := Nat.exists_eq_add_of_le (Nat.le_of_add_right_le hk)
  rw [hn, hrounds, hstop]

/-! ## Arguments -/

/-- Arguments are read up to the closing parenthesis. -/
theorem Nested.Complete.argumentList (h : nested.Complete n) {m : Nat} {s : Span} (hne : parts ≠ [])
    (hm : parts.length ≤ m + 1) (hlen : us.length ≤ n)
    (htakes : c.Takes (us ++ [⟨.punctuation ')', s⟩]) c') (hjoined : Joined us (parts.map (·.1)))
    (hparts : ∀ p ∈ parts, Derives p.1 p.2) :
    Grammar.argumentList nested m c = .ok (parts.map (·.2), c') := by
  -- By induction on the arguments: the last one is followed by the parenthesis, each other one by a
  -- comma.
  induction parts generalizing c us m with
  | nil => exact absurd rfl hne
  | cons p parts ih =>
    have hp := hparts p (by simp)
    cases parts with
    | nil =>
      cases hjoined
      obtain ⟨c₁, h₁, h₂⟩ := htakes.split
      have hgrip : c₁.grip < 1 := h₂.grip_lt (by decide) (by simp)
      have harg := h.assignment c p.1 p.2 c₁ hlen h₁ hp p.2.one_le_level hgrip
      have hclose := Cursor.expect_eq_ok.2 ⟨s, h₂⟩
      have hcomma : c₁.punctuation? ',' = none := by
        rw [Cursor.punctuation?_eq_none, h₂.next?]
        simp
      cases m with
      | zero =>
        rw [Grammar.argumentList, harg]
        simp only [bind, Except.bind, hclose]
        rfl
      | succ m =>
        rw [Grammar.argumentList, harg]
        simp only [bind, Except.bind, hcomma, hclose]
        rfl
    | cons q parts =>
      cases hjoined with
      | @more _ us' _ _ span hjoined =>
        rw [List.append_assoc, List.cons_append] at htakes
        obtain ⟨c₁, h₁, htakes⟩ := htakes.split
        obtain ⟨c₂, h₂, htakes⟩ := htakes.uncons
        have hlen : p.1.length + (us'.length + 1) ≤ n := by simpa using hlen
        have hgrip : c₁.grip < 1 := h₂.grip_lt (by decide) (by simp)
        have harg := h.assignment c p.1 p.2 c₁ (by omega) h₁ hp p.2.one_le_level hgrip
        cases m with
        | zero => simp at hm
        | succ m =>
          have hrest := ih (by simp) (by simpa using hm) (by omega) htakes hjoined
            fun r hr => hparts r (List.mem_cons_of_mem _ hr)
          rw [Grammar.argumentList, harg]
          simp only [bind, Except.bind, Cursor.punctuation?_eq_some.2 ⟨span, h₂⟩, hrest]
          rfl

/-- The arguments of a call are read. -/
theorem Nested.Complete.arguments (h : nested.Complete n) (hlen : ts.length ≤ n + 1)
    (htakes : c.Takes ts c') (hargs : AreArguments ts parts) (hparts : ∀ p ∈ parts, Derives p.1 p.2) :
    Grammar.arguments nested c = .ok (parts.map (·.2), c') := by
  obtain ⟨us, s₁, s₂, hjoined, rfl⟩ := hargs
  obtain ⟨c₁, h₁, htakes⟩ := htakes.uncons
  have hopen := Cursor.expect_eq_ok.2 ⟨s₁, h₁⟩
  cases parts with
  | nil =>
    cases hjoined
    rw [Grammar.arguments, hopen]
    simp only [bind, Except.bind, Cursor.punctuation?_eq_some.2 ⟨s₂, htakes⟩]
    rfl
  | cons p parts =>
    have hclose : c₁.punctuation? ')' = none := by
      obtain ⟨rest, hus⟩ : ∃ rest, us = p.1 ++ rest := hjoined.head
      obtain ⟨u, vs, hp, hu⟩ := (hparts p (by simp)).first
      rw [hus, hp] at htakes
      rw [Cursor.punctuation?_eq_none, htakes.next?]
      intro heq
      rw [Option.some.inj heq] at hu
      cases hu
    have hcount : (p :: parts).length ≤ c₁.tokens.length + 1 := by
      have hle := hjoined.length_le fun ts hts => by
        obtain ⟨q, hq, rfl⟩ := List.mem_map.1 hts
        exact (hparts q hq).ne_nil
      have hus := htakes.length_le
      rw [List.length_map] at hle
      rw [List.length_append] at hus
      omega
    have hlen : us.length ≤ n := by
      simp only [List.length_cons, List.length_append] at hlen
      omega
    have hlist := h.argumentList (by simp) hcount hlen htakes hjoined hparts
    rw [Grammar.arguments, hopen]
    simp only [bind, Except.bind, hclose, hlist]

/-! ## Chains -/

/-- Arguments start with a parenthesis. -/
theorem isAt_of_areArguments (hargs : AreArguments ts parts) (htakes : c.Takes ts c') :
    c.isAt '(' = true := by
  obtain ⟨us, s₁, s₂, -, rfl⟩ := hargs
  exact Cursor.isAt_iff.2 htakes.next?

/-- Behind a name no call starts. -/
theorem isAt_eq_false (h : c.grip < 16) : c.isAt '(' = false := by
  rw [Bool.eq_false_iff, ne_eq, Cursor.isAt_iff]
  exact Cursor.next?_ne h (by simp)

/-- A creation is read behind its word. -/
theorem Nested.Complete.creation (h : nested.Complete n) {type : TypeRef}
    (hlen : (ts ++ us).length ≤ n + 1) (htakes : c₁.Takes (ts ++ us) c')
    (htype : TypeRef.DerivesClass ts type) (hargs : AreArguments us parts)
    (hparts : ∀ p ∈ parts, Derives p.1 p.2) :
    Grammar.keyword nested .newObject c.start c₁ c =
      .ok (.creation (c'.spanFrom c.start) type (parts.map (·.2)), c') := by
  obtain ⟨c₂, h₁, h₂⟩ := htakes.split
  have hopen : c₂.next? = some (.punctuation '(') :=
    Cursor.isAt_iff.1 (isAt_of_areArguments hargs h₂)
  have hread : TypeRef.readClass c₁ = .ok (type, c₂) :=
    (TypeRef.parser_complete _).classType (Nat.le_succ_of_le h₁.length_le) h₁ htype
      (by simp [hopen]) (by simp [hopen])
  have hbracket : c₂.isAt '[' = false := by
    rw [Bool.eq_false_iff, ne_eq, Cursor.isAt_iff, hopen]
    simp
  have hread' := h.arguments (by rw [List.length_append] at hlen; omega) h₂ hargs hparts
  rw [Grammar.keyword, hread]
  simp only [bind, Except.bind, hbracket, hread']
  rfl

/-- The class literal of a reserved word is read. -/
theorem keyword_classLiteral {word : Keyword} {name : String} {dims : Nat} {ds : List Token}
    {s s₁ s₂ : Span} {behind : Cursor} (hword : word.typeName? = some name)
    (hdims : TypeRef.Dims ds dims)
    (htakes : c.Takes (⟨.keyword word, s⟩ :: (ds ++ [⟨.punctuation '.', s₁⟩, ⟨.keyword .classOf, s₂⟩]))
      c') :
    Grammar.keyword nested word c.start behind c =
      .ok (.classLiteral (c'.spanFrom c.start) (.named name [] dims), c') := by
  rw [← List.cons_append] at htakes
  obtain ⟨c₁, h₁, htakes⟩ := htakes.split
  obtain ⟨c₂, h₂, h₃⟩ := htakes.uncons
  have hread : TypeRef.read c = .ok (.named name [] dims, c₁) :=
    TypeRef.read_of_keyword hword hdims h₁ (by simp [h₂.next?])
  have hdot := Cursor.expect_eq_ok.2 ⟨s₁, h₂⟩
  cases word with
  | primitive | voidType =>
    rw [Grammar.keyword, hread]
    simp only [bind, Except.bind, hdot, Cursor.keyword?_eq_some.2 ⟨s₂, h₃⟩]
    rfl
  | _ => cases hword

/-- A field is a round of the chain. -/
theorem chainRest_field {receiver : Expr} {start : Nat} {part : String} {s₁ s₂ : Span} (n : Nat)
    (htakes : c.Takes [⟨.punctuation '.', s₁⟩, ⟨.identifier part, s₂⟩] c')
    (hopen : c'.isAt '(' = false) :
    chainRest nested start (n + 1) receiver c =
      chainRest nested start n (.field (c'.spanFrom start) receiver part) c' := by
  obtain ⟨c₁, h₁, h₂⟩ := htakes.uncons
  have hclass : c₁.keyword? .classOf = none := by
    rw [Cursor.keyword?_eq_none, h₂.next?]
    simp
  rw [chainRest, Cursor.punctuation?_eq_some.2 ⟨s₁, h₁⟩]
  simp only [hclass, Cursor.identifier_eq_ok.2 ⟨s₂, h₂⟩, bind, Except.bind, hopen]
  rfl

/-- A method is a round of the chain. -/
theorem Nested.Complete.chainRest_method (h : nested.Complete n) {receiver : Expr} {start : Nat}
    {part : String} {s₁ s₂ : Span} (hlen : us.length ≤ n + 1)
    (htakes : c.Takes (⟨.punctuation '.', s₁⟩ :: ⟨.identifier part, s₂⟩ :: us) c')
    (hargs : AreArguments us parts) (hparts : ∀ p ∈ parts, Derives p.1 p.2) (m : Nat) :
    chainRest nested start (m + 1) receiver c =
      chainRest nested start m (.method (c'.spanFrom start) receiver part (parts.map (·.2))) c' := by
  obtain ⟨c₁, h₁, htakes⟩ := htakes.uncons
  obtain ⟨c₂, h₂, h₃⟩ := htakes.uncons
  have hclass : c₁.keyword? .classOf = none := by
    rw [Cursor.keyword?_eq_none, h₂.next?]
    simp
  have hopen := isAt_of_areArguments hargs h₃
  have hread := h.arguments hlen h₃ hargs hparts
  rw [chainRest, Cursor.punctuation?_eq_some.2 ⟨s₁, h₁⟩]
  simp only [hclass, Cursor.identifier_eq_ok.2 ⟨s₂, h₂⟩, bind, Except.bind, hopen, if_true, hread]

/-- A position is a round of the chain. -/
theorem Nested.Complete.chainRest_index (h : nested.Complete n) {array position : Expr}
    {start : Nat} {s₁ s₂ : Span} (hlen : us.length ≤ n)
    (htakes : c.Takes (⟨.punctuation '[', s₁⟩ :: (us ++ [⟨.punctuation ']', s₂⟩])) c')
    (hposition : Derives us position) (m : Nat) :
    chainRest nested start (m + 1) array c =
      chainRest nested start m (.index (c'.spanFrom start) array position) c' := by
  obtain ⟨c₁, h₁, htakes⟩ := htakes.uncons
  obtain ⟨c₂, h₂, h₃⟩ := htakes.split
  have hdot : c.punctuation? '.' = none := by
    rw [Cursor.punctuation?_eq_none, h₁.next?]
    simp
  have hclose : c₁.isAt ']' = false := by
    obtain ⟨t, us, rfl, ht⟩ := hposition.first
    rw [Bool.eq_false_iff, ne_eq, Cursor.isAt_iff, h₂.next?]
    intro heq
    rw [Option.some.inj heq] at ht
    cases ht
  have hread := h.assignment c₁ us position c₂ hlen h₂ hposition position.one_le_level
    (h₃.grip_lt (by decide) (by simp))
  rw [chainRest, hdot, Cursor.punctuation?_eq_some.2 ⟨s₁, h₁⟩]
  simp only [hclose, hread, Cursor.expect_eq_ok.2 ⟨s₂, h₃⟩, bind, Except.bind]
  rfl

/-- A call that does not stand behind a dotted name does not stand inside it. -/
theorem next?_of_dotted {name full : String} (h : TypeRef.Dotted name ts full)
    (htakes : c.Takes ts c') (hopen : c'.next? ≠ some (.punctuation '(')) :
    c.next? ≠ some (.punctuation '(') := by
  cases h with
  | stop => rwa [(Cursor.Takes.refl c).det htakes]
  | dot => simp [htakes.next?]

/-- The fields of a dotted name are rounds of the chain. -/
theorem reaches_of_dotted {receiver : Expr} {name full : String} {start : Nat}
    (hdotted : TypeRef.Dotted name ts full) (htakes : c.Takes ts c')
    (hname : receiver.qualifiedName? = some name)
    (hreaches : Reaches (chainRest nested start) e₀ c₀ receiver c)
    (hopen : c'.next? ≠ some (.punctuation '(')) :
    ∃ e, e.qualifiedName? = some full ∧ Reaches (chainRest nested start) e₀ c₀ e c' := by
  induction hdotted generalizing receiver c with
  | stop name =>
    obtain rfl := (Cursor.Takes.refl c).det htakes
    exact ⟨receiver, hname, hreaches⟩
  | @dot name part full ts s₁ s₂ hdotted ih =>
    obtain ⟨c₁, h₁, htakes⟩ := htakes.uncons
    obtain ⟨c₂, h₂, htakes⟩ := htakes.uncons
    have hcall : c₂.isAt '(' = false := by
      rw [Bool.eq_false_iff, ne_eq, Cursor.isAt_iff]
      exact next?_of_dotted hdotted htakes hopen
    have hfull : (Expr.field (c₂.spanFrom start) receiver part).qualifiedName? =
        some (name ++ "." ++ part) := by
      rw [Expr.qualifiedName?, hname]
      rfl
    exact ih htakes hfull
      (hreaches.step (h₁.cons h₂) (by simp) fun n => chainRest_field n (h₁.cons h₂) hcall)

/-- A class literal behind its name is a round of the chain. -/
theorem Reaches.classLiteral {receiver : Expr} {full : String} {start dims : Nat} {ds : List Token}
    {s₁ s₂ : Span} (hreaches : Reaches (chainRest nested start) e₀ c₀ receiver c)
    (hname : receiver.qualifiedName? = some full) (hdims : TypeRef.Dims ds dims)
    (htakes : c.Takes (ds ++ [⟨.punctuation '.', s₁⟩, ⟨.keyword .classOf, s₂⟩]) c') :
    Reaches (chainRest nested start) e₀ c₀
      (.classLiteral (c'.spanFrom start) (.named full [] dims)) c' := by
  refine hreaches.step htakes (by simp) fun n => ?_
  obtain ⟨c₁, h₁, htakes⟩ := htakes.split
  obtain ⟨c₂, h₂, h₃⟩ := htakes.uncons
  have hread (dims : Nat) : Grammar.classLiteral start receiver dims c' =
      .ok (.classLiteral (c'.spanFrom start) (.named full [] dims)) :=
    classLiteral_eq_ok.2 ⟨full, hname, rfl⟩
  have hall := TypeRef.arrayDims_of_takes hdims h₁ (by simp [h₂.next?])
  rw [chainRest]
  cases hdims with
  | none =>
    obtain rfl := (Cursor.Takes.refl c).det h₁
    rw [Cursor.punctuation?_eq_some.2 ⟨s₁, h₂⟩]
    simp only [Cursor.keyword?_eq_some.2 ⟨s₂, h₃⟩, hread, bind, Except.bind]
  | dim r₁ r₂ hdims =>
    obtain ⟨c₃, h₄, htail⟩ := h₁.uncons
    have hdot : c.punctuation? '.' = none := by
      rw [Cursor.punctuation?_eq_none, h₄.next?]
      simp
    rw [hdot, Cursor.punctuation?_eq_some.2 ⟨r₁, h₄⟩]
    simp only [Cursor.isAt_iff.2 htail.next?, if_true, hall, Cursor.expect_eq_ok.2 ⟨s₁, h₂⟩,
      Cursor.keyword?_eq_some.2 ⟨s₂, h₃⟩, hread, bind, Except.bind]

/-! ### First operands -/

/-- The first operand of a chain is read at `c`, and rounds of the chain lead from it to `e` at `c'`. -/
def ChainsTo (nested : Nested) (c : Cursor) (e : Expr) (c' : Cursor) : Prop :=
  ∃ e₀ c₀, primary nested c = .ok (e₀, c₀) ∧ Reaches (chainRest nested c.start) e₀ c₀ e c'

/-- A first operand is reached without a round. -/
theorem ChainsTo.first (h : primary nested c = .ok (e, c')) : ChainsTo nested c e c' :=
  ⟨e, c', h, .refl _ _ _⟩

/-- One more link of the chain. -/
theorem ChainsTo.link {d : Expr} (h : ChainsTo nested c d c₁) (hlink : c₁.Takes us c') (hne : us ≠ [])
    (hround : ∀ m, chainRest nested c.start (m + 1) d c₁ = chainRest nested c.start m e c') :
    ChainsTo nested c e c' := by
  obtain ⟨e₀, c₀, hread, hreaches⟩ := h
  exact ⟨e₀, c₀, hread, hreaches.step hlink hne hround⟩

/-- A single token starts where its expression starts and ends where it ends. -/
theorem spanFrom_of_takes {l : Lexeme} {span : Span} (htakes : c.Takes [⟨l, span⟩] c') :
    c'.spanFrom c.start = span := htakes.spanFrom_eq (by simp)

/-- A truth value is read as a first operand. -/
theorem primary_boolean {word : Keyword} {span : Span} (hword : word = .trueValue ∨ word = .falseValue)
    (htakes : c.Takes [⟨.keyword word, span⟩] c') :
    primary nested c = .ok (.literal span .boolean word.text, c') := by
  rw [primary]
  rcases hword with rfl | rfl <;>
    simp only [htakes.tokens_cons, htakes.behind, Grammar.keyword, spanFrom_of_takes htakes] <;> rfl

/-- A name is a name unless it is the name of a call. -/
theorem primary_name {name : String} {span : Span} (htakes : c.Takes [⟨.identifier name, span⟩] c')
    (hcall : c'.isAt '(' = false) : primary nested c = .ok (.name span name, c') := by
  rw [primary]
  simp only [htakes.tokens_cons, htakes.behind, hcall, spanFrom_of_takes htakes]
  rfl

/-- A call without a scope is read as a first operand. -/
theorem Nested.Complete.primary_call (h : nested.Complete n) {name : String} {s : Span}
    (hlen : us.length ≤ n + 1) (htakes : c.Takes (⟨.identifier name, s⟩ :: us) c')
    (hargs : AreArguments us parts) (hparts : ∀ p ∈ parts, Derives p.1 p.2) :
    primary nested c =
      .ok (.call (Token.cover (⟨.identifier name, s⟩ :: us)) name (parts.map (·.2)), c') := by
  obtain ⟨c₁, h₁, h₂⟩ := htakes.uncons
  have hopen := isAt_of_areArguments hargs h₂
  have hread := h.arguments hlen h₂ hargs hparts
  rw [primary]
  simp only [h₁.tokens_cons, h₁.behind, hopen, hread, if_true, bind, Except.bind,
    ← htakes.spanFrom_eq (List.cons_ne_nil _ _)]
  rfl

/-- A creation is read as a first operand. -/
theorem Nested.Complete.primary_creation (h : nested.Complete n) {type : TypeRef} {s : Span}
    (hlen : (ts ++ us).length ≤ n + 1) (htakes : c.Takes (⟨.keyword .newObject, s⟩ :: (ts ++ us)) c')
    (htype : TypeRef.DerivesClass ts type) (hargs : AreArguments us parts)
    (hparts : ∀ p ∈ parts, Derives p.1 p.2) :
    primary nested c = .ok (.creation (Token.cover (⟨.keyword .newObject, s⟩ :: (ts ++ us))) type
      (parts.map (·.2)), c') := by
  obtain ⟨c₁, h₁, h₂⟩ := htakes.uncons
  have hread := h.creation (c := c) hlen h₂ htype hargs hparts
  rw [primary]
  simp only [h₁.tokens_cons, h₁.behind, hread, htakes.spanFrom_eq (List.cons_ne_nil _ _)]

/-- The class literal of a reserved word is read as a first operand. -/
theorem primary_primitiveClass {word : Keyword} {name : String} {dims : Nat} {ds : List Token}
    {s s₁ s₂ : Span} (hword : word.typeName? = some name) (hdims : TypeRef.Dims ds dims)
    (htakes : c.Takes (⟨.keyword word, s⟩ :: (ds ++ [⟨.punctuation '.', s₁⟩, ⟨.keyword .classOf, s₂⟩]))
      c') :
    primary nested c = .ok (.classLiteral (Token.cover (⟨.keyword word, s⟩ ::
      (ds ++ [⟨.punctuation '.', s₁⟩, ⟨.keyword .classOf, s₂⟩]))) (.named name [] dims), c') := by
  obtain ⟨c₁, h₁, h₂⟩ := htakes.uncons
  rw [primary]
  simp only [h₁.tokens_cons, h₁.behind, keyword_classLiteral hword hdims htakes,
    htakes.spanFrom_eq (List.cons_ne_nil _ _)]

/-- An expression in parentheses is read as a first operand. -/
theorem Nested.Complete.primary_enclosed (h : nested.Complete n) {inner : Expr} {s₁ s₂ : Span}
    (hlen : ts.length ≤ n)
    (htakes : c.Takes (⟨.punctuation '(', s₁⟩ :: (ts ++ [⟨.punctuation ')', s₂⟩])) c')
    (hinner : Derives ts inner) :
    primary nested c = .ok (.enclosed (Token.cover (⟨.punctuation '(', s₁⟩ ::
      (ts ++ [⟨.punctuation ')', s₂⟩]))) inner, c') := by
  obtain ⟨c₁, h₁, htail⟩ := htakes.uncons
  obtain ⟨c₂, h₂, h₃⟩ := htail.split
  have hread := h.assignment c₁ ts inner c₂ hlen h₂ hinner inner.one_le_level
    (h₃.grip_lt (by decide) (by simp))
  rw [primary]
  simp only [h₁.tokens_cons, h₁.behind, hread, Cursor.expect_eq_ok.2 ⟨s₂, h₃⟩, bind, Except.bind,
    htakes.spanFrom_eq (List.cons_ne_nil _ _)]
  rfl

/-- A class literal starts with the name in front of its first point, and the rest of the name are
fields until the word behind them is read. -/
theorem chainsTo_classLiteral {name full : String} {dims : Nat} {ds : List Token} {s s₁ s₂ : Span}
    (htakes : c.Takes (⟨.identifier name, s⟩ ::
      (ts ++ (ds ++ [⟨.punctuation '.', s₁⟩, ⟨.keyword .classOf, s₂⟩]))) c')
    (hname : TypeRef.Dotted name ts full) (hdims : TypeRef.Dims ds dims) :
    ChainsTo nested c (.classLiteral (c'.spanFrom c.start) (.named full [] dims)) c' := by
  obtain ⟨c₁, h₁, htail⟩ := htakes.uncons
  obtain ⟨c₂, h₂, h₃⟩ := htail.split
  have hopen : c₂.next? ≠ some (.punctuation '(') := by
    cases hdims <;> simp [h₃.next?]
  have hcall : c₁.isAt '(' = false := by
    rw [Bool.eq_false_iff, ne_eq, Cursor.isAt_iff]
    exact next?_of_dotted hname h₂ hopen
  obtain ⟨e, hfull, hreaches⟩ := reaches_of_dotted hname h₂ rfl (.refl _ (.name s name) c₁) hopen
  exact ⟨_, _, primary_name h₁ hcall, hreaches.classLiteral hfull hdims h₃⟩

/-- The first operand of a chain is read, and rounds of the chain lead to the whole. -/
theorem Nested.Complete.chainReaches (h : nested.Complete n) (hlen : ts.length ≤ n + 1)
    (htakes : c.Takes ts c') (hderives : Derives ts e) (hlevel : 15 ≤ e.level)
    (hgrip : c'.grip < 16) : ChainsTo nested c e c' := by
  -- the induction is on the derivation: what is in front of the last link is a chain itself
  induction hderives generalizing c' with
  | number | string | character | null | this =>
    refine .first ?_
    rw [primary]
    simp only [htakes.tokens_cons, htakes.behind, Grammar.keyword, spanFrom_of_takes htakes]
    rfl
  | boolean span hword => exact .first (primary_boolean hword htakes)
  | name n span => exact .first (primary_name htakes (isAt_eq_false hgrip))
  | field hvs h hscope ih =>
    subst hvs
    obtain ⟨c₁, h₁, hlink⟩ := htakes.split
    rw [List.length_append] at hlen
    have hchain := ih (by omega) h₁ hscope (hlink.grip_lt (by decide) (by simp))
    rw [← htakes.spanFrom_eq (by simp)]
    exact hchain.link hlink (by simp) fun m => chainRest_field m hlink (isAt_eq_false hgrip)
  | call hvs hargs hparts =>
    subst hvs
    rw [List.length_cons] at hlen
    exact .first (h.primary_call (by omega) htakes hargs hparts)
  | method hvs _ hscope hargs hparts ih =>
    subst hvs
    obtain ⟨c₁, h₁, hlink⟩ := htakes.split
    simp only [List.length_append, List.length_cons] at hlen
    have hchain := ih (by omega) h₁ hscope (hlink.grip_lt (by decide) (by simp))
    rw [← htakes.spanFrom_eq (by simp)]
    exact hchain.link hlink (by simp) (h.chainRest_method (by omega) hlink hargs hparts)
  | index hvs _ hlevel' hposition ih =>
    subst hvs
    obtain ⟨c₁, h₁, hlink⟩ := htakes.split
    simp only [List.length_append, List.length_cons] at hlen
    have hchain := ih (by omega) h₁ hlevel' (hlink.grip_lt (by decide) (by simp))
    rw [← htakes.spanFrom_eq (by simp)]
    exact hchain.link hlink (by simp) (h.chainRest_index (by omega) hlink hposition)
  | creation hvs htype hargs hparts =>
    subst hvs
    rw [List.length_cons] at hlen
    exact .first (h.primary_creation (by omega) htakes htype hargs hparts)
  | classLiteral hvs hname hdims =>
    subst hvs
    rw [← htakes.spanFrom_eq (List.cons_ne_nil _ _)]
    exact chainsTo_classLiteral htakes hname hdims
  | primitiveClass hvs hword hdims =>
    subst hvs
    exact .first (primary_primitiveClass hword hdims htakes)
  | enclosed hvs hinner =>
    subst hvs
    simp only [List.length_append, List.length_cons] at hlen
    exact .first (h.primary_enclosed (by omega) htakes hinner)
  | @before _ _ op => exact absurd hlevel (by simp only [Expr.level]; split <;> decide)
  | @behind _ _ op => exact absurd hlevel (by simp only [Expr.level]; split <;> decide)
  | @binary _ _ _ _ op => cases op <;> exact absurd hlevel (by simp [Expr.level, BinaryOp.level])
  | cast | instanceOf | conditional | assign => exact absurd hlevel (by simp [Expr.level])

/-- A chain is read if neither a point nor a bracket goes on with it. -/
theorem Nested.Complete.chainOf (h : nested.Complete n) :
    Grammar.Complete (n + 1) 15 (chain nested) := by
  intro c ts e c' hlen htakes hderives hlevel hgrip
  obtain ⟨e₀, c₀, hread, hreaches⟩ :=
    h.chainReaches hlen htakes hderives hlevel (Nat.lt_succ_of_lt hgrip)
  have hdot : c'.punctuation? '.' = none :=
    Cursor.punctuation?_eq_none.2 (Cursor.next?_ne hgrip (by simp))
  have hopen : c'.punctuation? '[' = none :=
    Cursor.punctuation?_eq_none.2 (Cursor.next?_ne hgrip (by simp))
  rw [chain, hread]
  refine hreaches.stop fun n => ?_
  cases n with
  | zero => rfl
  | succ n =>
    rw [chainRest, hdot, hopen]
    rfl

/-! ## Operators with one operand -/

/-- The operators behind an operand are the rounds of their loop. -/
theorem Nested.Complete.postfixReaches (h : nested.Complete n) (hlen : ts.length ≤ n + 1)
    (htakes : c.Takes ts c') (hderives : Derives ts e) (hlevel : 14 ≤ e.level)
    (hgrip : c'.grip < 15) :
    ∃ e₀ c₀, chain nested c = .ok (e₀, c₀) ∧ Reaches (postfixedRest c.start) e₀ c₀ e c' := by
  induction e using Expr.inductParts generalizing ts c' with
  | h e ih =>
    by_cases hchain : 15 ≤ e.level
    · exact ⟨e, c', h.chainOf c ts e c' hlen htakes hderives hchain hgrip, .refl _ _ _⟩
    · cases hderives with
      | @behind ts _ op operand s hvs hop hoperand hlevel' =>
        subst hvs
        obtain ⟨c₁, h₁, h₂⟩ := htakes.split
        have hsign : c₁.signOf? postfixOp? = some (op, c') := by
          refine Cursor.signOf?_eq_some.2 ⟨op.sign, s, ?_, h₂⟩
          cases op <;> first | rfl | cases hop
        have hgrip₁ : c₁.grip < 15 := by
          cases op with
          | postIncrement | postDecrement => exact h₂.grip_lt (by decide) (by simp [UnaryOp.sign])
          | _ => cases hop
        obtain ⟨e₀, c₀, hread, hreaches⟩ := ih operand (by simp [Expr.children])
          (by rw [List.length_append] at hlen; omega) h₁ hoperand hlevel' hgrip₁
        refine ⟨e₀, c₀, hread, hreaches.step h₂ (by simp) fun n => ?_⟩
        rw [postfixedRest, hsign]
        simp only [htakes.spanFrom_eq (by simp)]
      | before hvs hop =>
        rw [Expr.level, hop] at hlevel
        exact absurd hlevel (by decide)
      | @binary _ _ _ _ op => cases op <;> exact absurd hlevel (by simp [Expr.level, BinaryOp.level])
      | cast | instanceOf | conditional | assign => exact absurd hlevel (by simp [Expr.level])
      | _ => exact absurd (Nat.le_refl 15) hchain

/-- An operand with operators behind it is read. -/
theorem Nested.Complete.postfixedOf (h : nested.Complete n) :
    Grammar.Complete (n + 1) 14 (postfixed nested) := by
  intro c ts e c' hlen htakes hderives hlevel hgrip
  obtain ⟨e₀, c₀, hread, hreaches⟩ :=
    h.postfixReaches hlen htakes hderives hlevel (Nat.lt_succ_of_lt hgrip)
  have hsign : c'.signOf? postfixOp? = none := by
    refine Cursor.signOf?_eq_none.2 fun s hs => ?_
    cases s with
    | plusPlus | minusMinus => exact absurd hs (Cursor.next?_ne hgrip (by simp))
    | _ => rfl
  rw [postfixed, hread]
  refine hreaches.stop fun n => ?_
  cases n with
  | zero => rfl
  | succ n =>
    rw [postfixedRest, hsign]
    rfl

/-- A cast is found where its type and its operand stand. -/
theorem castType?_of_takes {c₂ : Cursor} {type : TypeRef} {s₁ s₂ : Span} {l : Lexeme}
    (h₁ : c.Takes [⟨.punctuation '(', s₁⟩] c₁) (htype : TypeRef.Derives ts type)
    (h₂ : c₁.Takes ts c₂) (h₃ : c₂.Takes [⟨.punctuation ')', s₂⟩] c') (hl : c'.next? = some l)
    (hstart : ∀ t, ts.head? = some t → t.lexeme.isTypeWord = true ∨ l.startsOperand = true) :
    castType? c = .ok (some (type, c')) := by
  have hread : TypeRef.read c₁ = .ok (type, c₂) :=
    TypeRef.parser_complete _ c₁ ts type c₂ (Nat.le_succ_of_le h₂.length_le) h₂ htype
      (by simp [h₃.next?]) (by simp [h₃.next?]) (by simp [h₃.next?])
  have hclose := Cursor.punctuation?_eq_some.2 ⟨s₂, h₃⟩
  obtain ⟨⟨lexeme, span⟩, us, rfl, hfirst⟩ := htype.first
  have htokens : c₁.tokens = ⟨lexeme, span⟩ :: (us ++ c₂.tokens) := h₂.tokens
  rw [castType?, Cursor.punctuation?_eq_some.2 ⟨s₁, h₁⟩]
  rcases hfirst with ⟨name, hname⟩ | ⟨word, hword, htypeword⟩
  · obtain rfl : lexeme = .identifier name := hname
    have hoperand : c'.startsOperand = true := by
      rw [Cursor.startsOperand_eq, hl]
      exact (hstart _ rfl).resolve_left (by simp [Lexeme.isTypeWord])
    simp only [htokens, hread, hclose, hoperand, if_true]
    rfl
  · obtain rfl : lexeme = .keyword word := hword
    simp only [htokens, hread, hclose, htypeword, if_true]
    rfl

/-- An operand with operators and casts in front of it is read. -/
theorem Nested.Complete.prefixedOf (h : nested.Complete n) :
    Grammar.Complete (n + 1) 13 (Grammar.prefixed nested) := by
  intro c ts e c' hlen htakes hderives hlevel hgrip
  rw [Grammar.prefixed]
  -- An operand of a higher level starts neither with a prefix operator nor with a cast.
  by_cases hpostfixed : 14 ≤ e.level
  · have hsign : c.signOf? prefixOp? = none := by
      refine Cursor.signOf?_eq_none.2 fun s hs => ?_
      obtain ⟨t, us, rfl, -⟩ := hderives.first
      rw [htakes.next?] at hs
      exact absurd (Option.some.inj hs) (hderives.first_of_level hpostfixed t rfl s)
    have hcast := castType?_eq_none htakes hderives hpostfixed (by omega)
    simp only [hsign, hcast, bind, Except.bind]
    exact h.postfixedOf c ts e c' hlen htakes hderives hpostfixed (Nat.lt_succ_of_lt hgrip)
  · cases hderives with
    | @before ts _ op operand s hvs hop hoperand hlevel' =>
      subst hvs
      obtain ⟨c₁, h₁, h₂⟩ := htakes.uncons
      have hsign : c.signOf? prefixOp? = some (op, c₁) := by
        refine Cursor.signOf?_eq_some.2 ⟨op.sign, s, ?_, h₁⟩
        cases op <;> first | rfl | cases hop
      have hread := h.prefixed c₁ ts operand c' (by rw [List.length_cons] at hlen; omega) h₂ hoperand
        hlevel' hgrip
      simp only [hsign, hread, bind, Except.bind, htakes.spanFrom_eq (List.cons_ne_nil _ _)]
      rfl
    | @cast ts us _ type operand s₁ s₂ hvs htype hoperand hlevel' hstart =>
      subst hvs
      obtain ⟨c₁, h₁, htail⟩ := htakes.uncons
      obtain ⟨c₂, h₂, htail⟩ := htail.split
      obtain ⟨c₃, h₃, h₄⟩ := htail.uncons
      have hsign : c.signOf? prefixOp? = none := by
        refine Cursor.signOf?_eq_none.2 fun s hs => ?_
        rw [h₁.next?] at hs
        cases hs
      obtain ⟨u, us, rfl, -⟩ := hoperand.first
      have hcast := castType?_of_takes h₁ htype h₂ h₃ h₄.next? fun t ht => hstart t u ht rfl
      have hread := h.prefixed c₃ (u :: us) operand c'
        (by simp only [List.length_cons, List.length_append] at hlen ⊢; omega) h₄ hoperand hlevel' hgrip
      simp only [hsign, hcast, hread, bind, Except.bind, htakes.spanFrom_eq (List.cons_ne_nil _ _)]
      rfl
    | @behind _ _ op _ _ hvs hop =>
      rw [Expr.level, hop] at hpostfixed
      exact absurd (by decide) hpostfixed
    | @binary _ _ _ _ op => cases op <;> exact absurd hlevel (by simp [Expr.level, BinaryOp.level])
    | instanceOf | conditional | assign => exact absurd hlevel (by simp [Expr.level])
    | _ => exact absurd (Nat.le_succ 14) hpostfixed

/-! ## Operators with two operands -/

variable {next : Parser Expr}

/-- An operator and its right operand are a round of the loop. -/
theorem Reaches.binary {operator? : Cursor → Option (BinaryOp × Cursor)} {start level : Nat}
    {left right : Expr} {op : BinaryOp} {os rs : List Token}
    (hreaches : Reaches (binaryRest operator? next start) e₀ c₀ left c)
    (hfinds : Finds level operator?) (hop : op.level = level) (hsigns : Token.AreSigns op.signs os)
    (h₁ : c.Takes os c₁) (h₂ : c₁.Takes rs c') (hright : Derives rs right)
    (hread : next c₁ = .ok (right, c')) :
    Reaches (binaryRest operator? next start) e₀ c₀
      (.binary (c'.spanFrom start) op left right) c' := by
  refine hreaches.step (h₁.trans h₂) (by simp [hright.ne_nil]) fun n => ?_
  obtain ⟨t, us, rfl, ht⟩ := hright.first
  rw [binaryRest, hfinds.some c op os c₁ t.lexeme hop h₁ hsigns h₂.next? ht]
  simp only [hread, bind, Except.bind]

/-- The operands and operators of a level are the rounds of its loop. -/
theorem binaryReaches {operator? : Cursor → Option (BinaryOp × Cursor)} {level : Nat}
    (hfinds : Finds level operator?) (hnext : Grammar.Complete n (level + 1) next)
    (hlow : 3 ≤ level) (hhigh : level ≤ 12) (hne : level ≠ 9) (hlen : ts.length ≤ n)
    (htakes : c.Takes ts c') (hderives : Derives ts e) (hlevel : level ≤ e.level)
    (hgrip : c'.grip < level + 1) :
    ∃ e₀ c₀, next c = .ok (e₀, c₀) ∧ Reaches (binaryRest operator? next c.start) e₀ c₀ e c' := by
  induction e using Expr.inductParts generalizing ts c' with
  | h e ih =>
    rcases Expr.level_cases hlevel hlow hhigh with hover | hbinary | htest
    · exact ⟨e, c', hnext c ts e c' hlen htakes hderives hover hgrip, .refl _ _ _⟩
    · obtain ⟨span, op, left, right, rfl, hop⟩ := hbinary
      cases hderives with
      | @binary ls os rs _ _ _ _ hvs hsigns hl hr hleft hright hless =>
        subst hvs
        obtain ⟨c₁, h₁, htail⟩ := htakes.split
        obtain ⟨c₂, h₂, h₃⟩ := htail.split
        simp only [List.length_append] at hlen
        have hgrip₁ : c₁.grip < level + 1 := by
          obtain ⟨t, us, rfl, ht⟩ := hr.first
          rw [grip_of_areSigns h₂ hsigns h₃.next? ht, hop]
          exact Nat.lt_succ_self level
        obtain ⟨e₀, c₀, hread, hreaches⟩ := ih left (by simp [Expr.children]) (by omega) h₁ hl
          (hop ▸ hleft) hgrip₁
        have hread' := hnext c₂ rs right c' (by omega) h₃ hr (hop ▸ hright) hgrip
        have hspan := htakes.spanFrom_eq (by simp [hl.ne_nil])
        exact ⟨e₀, c₀, hread, hspan ▸ hreaches.binary hfinds hop hsigns h₂ h₃ hr hread'⟩
    · exact absurd htest.1 hne

/-- A level of operators is complete if the level above is and its operators are found. -/
theorem complete_binaryLevel {operator? : Cursor → Option (BinaryOp × Cursor)} {level : Nat}
    (hfinds : Finds level operator?) (hlow : 3 ≤ level) (hhigh : level ≤ 12) (hne : level ≠ 9)
    (hnext : Grammar.Complete n (level + 1) next) :
    Grammar.Complete n level (binaryLevel operator? next) := by
  intro c ts e c' hlen htakes hderives hlevel hgrip
  obtain ⟨e₀, c₀, hread, hreaches⟩ := binaryReaches hfinds hnext hlow hhigh hne hlen htakes hderives
    hlevel (Nat.lt_succ_of_lt hgrip)
  rw [binaryLevel, hread]
  refine hreaches.stop fun n => ?_
  cases n with
  | zero => rfl
  | succ n =>
    rw [binaryRest, hfinds.none c' hgrip]
    rfl

/-- The first sign of an operator; only that of the comparison is a `<`. -/
theorem first_of_areSigns {op : BinaryOp} {os : List Token} (h : Token.AreSigns op.signs os) :
    ∃ s span us, os = ⟨.sign s, span⟩ :: us ∧ (s = .less → op = .less) := by
  cases op <;> obtain ⟨span, us, rfl, -⟩ := Token.areSigns_cons.1 h <;>
    exact ⟨_, span, us, rfl, by decide⟩

/-- A comparison is a round of the loop. -/
theorem Reaches.comparison {start : Nat} {left right : Expr} {op : BinaryOp} {os rs : List Token}
    (hreaches : Reaches (relationalRest next start) e₀ c₀ left c) (hop : op.level = 9)
    (hsigns : Token.AreSigns op.signs os) (h₁ : c.Takes os c₁) (h₂ : c₁.Takes rs c')
    (hright : Derives rs right) (hread : next c₁ = .ok (right, c')) :
    Reaches (relationalRest next start) e₀ c₀ (.binary (c'.spanFrom start) op left right) c' := by
  refine hreaches.step (h₁.trans h₂) (by simp [hright.ne_nil]) fun n => ?_
  obtain ⟨t, us, rfl, ht⟩ := hright.first
  obtain ⟨s, span, os', rfl, -⟩ := first_of_areSigns hsigns
  have hword : c.keyword? .instanceOf = none := by
    rw [Cursor.keyword?_eq_none, h₁.next?]
    simp
  rw [relationalRest, hword]
  simp only [finds_comparison.some c op _ c₁ t.lexeme hop h₁ hsigns h₂.next? ht, hread, bind,
    Except.bind]

/-- A type test is a round of the loop. -/
theorem Reaches.typeTest {start : Nat} {operand : Expr} {type : TypeRef} {s : Span}
    (hreaches : Reaches (relationalRest next start) e₀ c₀ operand c)
    (htakes : c.Takes (⟨.keyword .instanceOf, s⟩ :: us) c') (htype : TypeRef.Derives us type)
    (hgrip : c'.grip < 10) (hless : EndsInName us → c'.next? ≠ some (.sign .less)) :
    Reaches (relationalRest next start) e₀ c₀ (.instanceOf (c'.spanFrom start) operand type) c' := by
  refine hreaches.step htakes (by simp) fun n => ?_
  obtain ⟨c₁, h₁, h₂⟩ := htakes.uncons
  have hread : TypeRef.read c₁ = .ok (type, c') :=
    TypeRef.parser_complete _ c₁ us type c' (Nat.le_succ_of_le h₂.length_le) h₂ htype
      (Cursor.next?_ne (Nat.lt_trans hgrip (by decide)) (by simp))
      (Cursor.next?_ne (Nat.lt_trans hgrip (by decide)) (by simp)) hless
  rw [relationalRest, Cursor.keyword?_eq_some.2 ⟨s, h₁⟩]
  simp only [hread, bind, Except.bind]

/-- The operands, comparisons and type tests are the rounds of their loop. -/
theorem relationalReaches (hnext : Grammar.Complete n 10 next) (hlen : ts.length ≤ n)
    (htakes : c.Takes ts c') (hderives : Derives ts e) (hlevel : 9 ≤ e.level)
    (hgrip : c'.grip < 10)
    (hless : e.isTypeTest = true → EndsInName ts → c'.next? ≠ some (.sign .less)) :
    ∃ e₀ c₀, next c = .ok (e₀, c₀) ∧ Reaches (relationalRest next c.start) e₀ c₀ e c' := by
  induction e using Expr.inductParts generalizing ts c' with
  | h e ih =>
    rcases Expr.level_cases hlevel (by decide) (by decide) with hover | hbinary | htest
    · exact ⟨e, c', hnext c ts e c' hlen htakes hderives hover hgrip, .refl _ _ _⟩
    · obtain ⟨span, op, left, right, rfl, hop⟩ := hbinary
      cases hderives with
      | @binary ls os rs _ _ _ _ hvs hsigns hl hr hleft hright hbare =>
        subst hvs
        obtain ⟨c₁, h₁, htail⟩ := htakes.split
        obtain ⟨c₂, h₂, h₃⟩ := htail.split
        simp only [List.length_append] at hlen
        have hgrip₁ : c₁.grip < 10 := by
          obtain ⟨t, us, rfl, ht⟩ := hr.first
          rw [grip_of_areSigns h₂ hsigns h₃.next? ht, hop]
          decide
        -- the operator is a `<` only if it starts with one
        have hnot : left.isTypeTest = true → EndsInName ls → c₁.next? ≠ some (.sign .less) := by
          obtain ⟨s, span, os', rfl, hs⟩ := first_of_areSigns hsigns
          intro htest hname hnext
          rw [h₂.next?] at hnext
          exact hbare (hs (Lexeme.sign.inj (Option.some.inj hnext))) htest hname
        obtain ⟨e₀, c₀, hread, hreaches⟩ := ih left (by simp [Expr.children]) (by omega) h₁ hl
          (hop ▸ hleft) hgrip₁ hnot
        have hread' := hnext c₂ rs right c' (by omega) h₃ hr (by omega) hgrip
        have hspan := htakes.spanFrom_eq (by simp [hl.ne_nil])
        exact ⟨e₀, c₀, hread, hspan ▸ hreaches.comparison hop hsigns h₂ h₃ hr hread'⟩
    · obtain ⟨-, span, operand, type, rfl⟩ := htest
      cases hderives with
      | @instanceOf ts us _ _ _ s hvs hoperand hlevel' htype =>
        subst hvs
        obtain ⟨c₁, h₁, htail⟩ := htakes.split
        simp only [List.length_append, List.length_cons] at hlen
        obtain ⟨e₀, c₀, hread, hreaches⟩ := ih operand (by simp [Expr.children]) (by omega) h₁
          hoperand hlevel' (htail.grip_lt (by decide) (by simp)) (by simp [htail.next?])
        have hends (hname : EndsInName us) : c'.next? ≠ some (.sign .less) := by
          refine hless rfl ?_
          obtain ⟨u, us, rfl⟩ := List.exists_cons_of_ne_nil htype.ne_nil
          rw [endsInName_append_cons]
          exact (@endsInName_append_cons [_] us u).2 hname
        have hspan := htakes.spanFrom_eq (by simp)
        exact ⟨e₀, c₀, hread, hspan ▸ hreaches.typeTest htail htype hgrip hends⟩

/-- The level of the comparisons is complete. -/
theorem complete_relational
    (hnext : Grammar.Complete n 10 (shift nested)) : Grammar.Complete n 9 (relational nested) := by
  intro c ts e c' hlen htakes hderives hlevel hgrip
  obtain ⟨e₀, c₀, hread, hreaches⟩ := relationalReaches hnext hlen htakes hderives hlevel
    (Nat.lt_succ_of_lt hgrip) fun _ _ => Cursor.next?_ne hgrip (by simp)
  have hword : c'.keyword? .instanceOf = none :=
    Cursor.keyword?_eq_none.2 (Cursor.next?_ne hgrip (by simp))
  rw [relational, hread]
  refine hreaches.stop fun n => ?_
  cases n with
  | zero => rfl
  | succ n =>
    rw [relationalRest, hword, finds_comparison.none c' hgrip]
    rfl

/-- A level with one operator is complete. -/
theorem complete_singleLevel (s : Sign) (op : BinaryOp) (hsigns : op.signs = [s])
    (hgrip : s.grip = op.level) (hlow : 3 ≤ op.level) (hhigh : op.level ≤ 7)
    (hnext : Grammar.Complete n (op.level + 1) next) :
    Grammar.Complete n op.level (singleLevel s op next) := by
  have hne : s ≠ .greater := by
    rintro rfl
    rw [← hgrip] at hhigh
    exact absurd hhigh (by decide)
  -- below the equalities every level has a single operator
  have honly (op' : BinaryOp) (heq : op'.level = op.level) : op' = op := by
    cases op <;> first | exact absurd hhigh (by decide) | cases op' <;> first | rfl | cases heq
  exact complete_binaryLevel (finds_sign? hsigns hgrip hne honly) hlow (by omega) (by omega) hnext

/-- All operators with two operands are read. -/
theorem Nested.Complete.disjunctionOf (h : nested.Complete n) :
    Grammar.Complete (n + 1) 3 (disjunction nested) := by
  have hmultiplicative : Grammar.Complete (n + 1) 12 (multiplicative nested) := by
    refine complete_binaryLevel (finds_signOf? (fun s op hs => ?_) fun op hop => ?_) (by decide)
      (by decide) (by decide) h.prefixedOf
    · cases s <;> cases hs <;> exact ⟨rfl, by decide⟩
    · cases op <;> first | exact ⟨_, rfl, rfl⟩ | cases hop
  have hadditive : Grammar.Complete (n + 1) 11 (additive nested) := by
    refine complete_binaryLevel (finds_signOf? (fun s op hs => ?_) fun op hop => ?_) (by decide)
      (by decide) (by decide) hmultiplicative
    · cases s <;> cases hs <;> exact ⟨rfl, by decide⟩
    · cases op <;> first | exact ⟨_, rfl, rfl⟩ | cases hop
  have hshift : Grammar.Complete (n + 1) 10 (shift nested) :=
    complete_binaryLevel finds_shift (by decide) (by decide) (by decide) hadditive
  have hrelational : Grammar.Complete (n + 1) 9 (relational nested) := complete_relational hshift
  have hequality : Grammar.Complete (n + 1) 8 (equality nested) := by
    refine complete_binaryLevel (finds_signOf? (fun s op hs => ?_) fun op hop => ?_) (by decide)
      (by decide) (by decide) hrelational
    · cases s <;> cases hs <;> exact ⟨rfl, by decide⟩
    · cases op <;> first | exact ⟨_, rfl, rfl⟩ | cases hop
  have hbitAnd : Grammar.Complete (n + 1) 7 (bitAnd nested) :=
    complete_singleLevel .amp .bitAnd rfl rfl (by decide) (by decide) hequality
  have hxor : Grammar.Complete (n + 1) 6 (xor nested) :=
    complete_singleLevel .caret .xor rfl rfl (by decide) (by decide) hbitAnd
  have hbitOr : Grammar.Complete (n + 1) 5 (bitOr nested) :=
    complete_singleLevel .bar .bitOr rfl rfl (by decide) (by decide) hxor
  have hconjunction : Grammar.Complete (n + 1) 4 (conjunction nested) :=
    complete_singleLevel .ampAmp .and rfl rfl (by decide) (by decide) hbitOr
  exact complete_singleLevel .barBar .or rfl rfl (by decide) (by decide) hconjunction

/-! ## Conditionals and assignments -/

/-- Conditionals are read. -/
theorem Nested.Complete.conditionalOf (h : nested.Complete n) :
    Grammar.Complete (n + 1) 2 (Grammar.conditional nested) := by
  intro c ts e c' hlen htakes hderives hlevel hgrip
  rw [Grammar.conditional]
  by_cases hbinary : 3 ≤ e.level
  · have hread := h.disjunctionOf c ts e c' hlen htakes hderives hbinary (Nat.lt_succ_of_lt hgrip)
    have hsign : c'.sign? .question = none :=
      Cursor.sign?_eq_none.2 (Cursor.next?_ne hgrip (by simp))
    simp only [hread, hsign, bind, Except.bind]
    rfl
  · cases hderives with
    | @conditional cs ts fs _ condition whenTrue whenFalse s₁ s₂ hvs hc ht hf hcondition hfalse =>
      subst hvs
      obtain ⟨c₁, h₁, htail⟩ := htakes.split
      obtain ⟨c₂, h₂, htail⟩ := htail.uncons
      obtain ⟨c₃, h₃, htail⟩ := htail.split
      obtain ⟨c₄, h₄, h₅⟩ := htail.uncons
      simp only [List.length_append, List.length_cons] at hlen
      have hgrip₁ : c₁.grip < 3 := h₂.grip_lt (by decide) (by simp)
      have hgrip₃ : c₃.grip < 1 := h₄.grip_lt (by decide) (by simp)
      have hread₁ := h.disjunctionOf c cs condition c₁ (by omega) h₁ hc hcondition hgrip₁
      have hread₂ := h.assignment c₂ ts whenTrue c₃ (by omega) h₃ ht whenTrue.one_le_level hgrip₃
      have hread₃ := h.conditional c₄ fs whenFalse c' (by omega) h₅ hf hfalse hgrip
      simp only [hread₁, Cursor.sign?_eq_some.2 ⟨s₁, h₂⟩, hread₂, Cursor.expect_eq_ok.2 ⟨s₂, h₄⟩,
        hread₃, bind, Except.bind, htakes.spanFrom_eq (by simp)]
      rfl
    | assign => exact absurd hlevel (by simp [Expr.level])
    | @before _ _ op | @behind _ _ op =>
      refine absurd ?_ hbinary
      rw [Expr.level]
      split <;> decide
    | @binary _ _ _ _ op =>
      refine absurd ?_ hbinary
      rw [Expr.level]
      cases op <;> decide
    | _ => exact absurd (by simp [Expr.level]) hbinary

/-- Assignments are read. -/
theorem Nested.Complete.assignmentOf (h : nested.Complete n) :
    Grammar.Complete (n + 1) 1 (Grammar.assignment nested) := by
  intro c ts e c' hlen htakes hderives hlevel hgrip
  rw [Grammar.assignment]
  by_cases hconditional : 2 ≤ e.level
  · have hread := h.conditionalOf c ts e c' hlen htakes hderives hconditional
      (Nat.lt_succ_of_lt hgrip)
    simp only [hread, Cursor.assignOperator?_eq_none hgrip, bind, Except.bind]
    rfl
  · cases hderives with
    | @assign ts os us _ op target value hvs hop ht hv htarget =>
      subst hvs
      obtain ⟨c₁, h₁, htail⟩ := htakes.split
      obtain ⟨c₂, h₂, h₃⟩ := htail.split
      simp only [List.length_append] at hlen
      obtain ⟨hassign, hgrip₁⟩ := Cursor.assignOperator?_of_areSigns h₂ hop
      have htwo : 2 ≤ target.level := by
        cases target <;> first | exact (by decide : 2 ≤ 15) | cases htarget
      have hpos := List.length_pos_iff.2 ht.ne_nil
      have hread₁ := h.conditionalOf c ts target c₁ (by omega) h₁ ht htwo (by omega)
      have hread₂ := h.assignment c₂ us value c' (by omega) h₃ hv value.one_le_level hgrip
      simp only [hread₁, hassign, htarget, if_true, hread₂, bind, Except.bind,
        htakes.spanFrom_eq (by simp [ht.ne_nil])]
      rfl
    | @before _ _ op | @behind _ _ op =>
      refine absurd ?_ hconditional
      rw [Expr.level]
      split <;> decide
    | @binary _ _ _ _ op =>
      refine absurd ?_ hconditional
      rw [Expr.level]
      cases op <;> decide
    | _ => exact absurd (by simp [Expr.level]) hconditional

/-- The reader is complete for as many tokens as it may go deep. -/
theorem Nested.complete_ofDepth (n : Nat) : (Nested.ofDepth n).Complete n := by
  induction n with
  | zero =>
    have hnone (level : Nat) (p : Parser Expr) : Grammar.Complete 0 level p := by
      intro c ts e c' hlen _ hderives
      exact absurd (List.eq_nil_of_length_eq_zero (Nat.le_zero.1 hlen)) hderives.ne_nil
    exact ⟨hnone _ _, hnone _ _, hnone _ _⟩
  | succ n ih => exact ⟨ih.assignmentOf, ih.conditionalOf, ih.prefixedOf⟩

end Grammar

/-- The tokens of an expression are read as it. -/
theorem Expr.ofTokens_of_derives {ts : List Token} {e : Expr} (h : Derives ts e) :
    ofTokens ts = .ok e := by
  obtain ⟨t, us, rfl, -⟩ := h.first
  have hgrip : (Cursor.mk [] (Token.endOf 0 (t :: us))).grip < 1 := Nat.zero_lt_one
  have hread : read (.ofTokens (t :: us)) = .ok (e, ⟨[], Token.endOf 0 (t :: us)⟩) :=
    (Grammar.Nested.complete_ofDepth _).assignment _ (t :: us) e _ (Nat.le_succ _)
      ⟨(List.append_nil _).symm, rfl⟩ h e.one_le_level hgrip
  rw [ofTokens, if_neg (by simp), hread]
  rfl

/-- The reader of expressions reads exactly what the grammar derives. -/
theorem Expr.ofTokens_eq_ok {ts : List Token} {e : Expr} : ofTokens ts = .ok e ↔ Derives ts e :=
  ⟨derives_of_ofTokens, ofTokens_of_derives⟩

end Stencil
