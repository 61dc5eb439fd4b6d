import Stencil.Proofs.Expr.Derivation
import Stencil.Proofs.TypeRef.Reading

/-!
# What the reader of expressions reads, the grammar derives

What the reader of expressions reads, the grammar derives: `Expr.derives_of_ofTokens`. One lemma for
each function of the reader, in the order of the levels. A level is sound (`Grammar.Sound`) if what it
takes is a derived tree of that level; a loop keeps the tree read so far derived, and so does each of
its rounds, so the statements about loops carry that tree with its tokens (`Nested.Sound.chainRest`,
`sound_postfixedRest`, `sound_binaryRest`, `sound_relationalRest`).

The reader calls itself for what is in brackets, and counts down while it does. Everything is shown
for a reader `nested` that is assumed to be sound (`Nested.Sound`), and `Nested.sound_ofDepth` puts
the levels together by induction on the count.

Two decisions of the reader need an argument of their own. Behind a parenthesis that starts no cast
stands no word for a type (`isTypeWord_of_castType?`), which the grammar asks of expressions in
parentheses. And behind a type test that ends in a name no `<` is left, because the reader of types
would have gone on with it (`sound_relationalRest`).

**What it does not establish.** That everything derived is read is Proofs/Expr/Completeness.
-/

namespace Stencil

open Stencil.Expr (Derives AreArguments)

namespace Cursor

variable {c c' : Cursor}

/-- An operator is found if and only if its sign is passed. -/
theorem signOf?_eq_some {α : Type} {f : Sign → Option α} {a : α} :
    c.signOf? f = some (a, c') ↔ ∃ s span, f s = some a ∧ c.Takes [⟨.sign s, span⟩] c' := by
  constructor
  · intro h
    unfold signOf? at h
    split at h
    · next s span rest htokens =>
      obtain ⟨b, hb, heq⟩ := Option.map_eq_some_iff.1 h
      obtain ⟨rfl, rfl⟩ := Prod.mk.inj heq
      exact ⟨s, span, hb, takes_head htokens⟩
    · cases h
  · rintro ⟨s, span, hs, h⟩
    rw [signOf?, h.tokens_cons]
    simp only [hs, Option.map_some]
    rw [← h.stop_eq]

/-- Whether an operand starts is told by the next lexeme. -/
theorem startsOperand_eq (c : Cursor) :
    c.startsOperand = (c.next?.map Lexeme.startsOperand).getD false := by
  rw [startsOperand, next?]
  cases c.tokens with
  | nil => rfl
  | cons t rest =>
    cases t with
    | mk l span => cases l <;> rfl

/-- Where an operand starts, the next lexeme may start one. -/
theorem startsOperand_of_next? {l : Lexeme} (h : c.startsOperand = true) (hl : c.next? = some l) :
    l.startsOperand = true := by
  rwa [startsOperand_eq, hl] at h

end Cursor

namespace Grammar

/-- What the reader takes is an expression of the level. -/
def Sound (level : Nat) (p : Parser Expr) : Prop :=
  ∀ c e c', p c = .ok (e, c') → ∃ ts, c.Takes ts c' ∧ Derives ts e ∧ level ≤ e.level

/-- The readers of nested expressions are sound. -/
structure Nested.Sound (nested : Nested) : Prop where
  assignment : Grammar.Sound 1 nested.assignment
  conditional : Grammar.Sound 2 nested.conditional
  prefixed : Grammar.Sound 13 nested.prefixed

variable {nested : Nested} {c c' : Cursor} {e : Expr} {args : List Expr} {n : Nat}

/-! ## Arguments -/

/-- What is read up to the closing parenthesis is a list of arguments. -/
theorem Nested.Sound.argumentList (h : nested.Sound)
    (hread : argumentList nested n c = .ok (args, c')) :
    ∃ (us : List Token) (s : Span) (parts : List (List Token × Expr)),
      c.Takes (us ++ [⟨.punctuation ')', s⟩]) c' ∧ parts ≠ [] ∧ Joined us (parts.map (·.1)) ∧
      args = parts.map (·.2) ∧ ∀ p ∈ parts, Derives p.1 p.2 := by
  induction n generalizing c args with
  | zero =>
    obtain ⟨⟨arg, c₁⟩, harg, hread⟩ := bind_eq_ok.1 hread
    obtain ⟨c₂, hclose, hread⟩ := bind_eq_ok.1 hread
    obtain ⟨rfl, rfl⟩ := Prod.mk.inj (Except.ok.inj hread)
    obtain ⟨ts, h₁, hderives, -⟩ := h.assignment _ _ _ harg
    obtain ⟨s, h₂⟩ := Cursor.expect_eq_ok.1 hclose
    exact ⟨ts, s, [(ts, arg)], h₁.trans h₂, by simp, .one ts, rfl, by simpa using hderives⟩
  | succ n ih =>
    obtain ⟨⟨arg, c₁⟩, harg, hread⟩ := bind_eq_ok.1 hread
    obtain ⟨ts, h₁, hderives, -⟩ := h.assignment _ _ _ harg
    simp only at hread
    split at hread
    · next c₂ hcomma =>
      obtain ⟨span, h₂⟩ := Cursor.punctuation?_eq_some.1 hcomma
      obtain ⟨⟨args', c₃⟩, hargs, hread⟩ := bind_eq_ok.1 hread
      obtain ⟨rfl, rfl⟩ := Prod.mk.inj (Except.ok.inj hread)
      obtain ⟨us, s, parts, h₃, hne, hjoined, rfl, hparts⟩ := ih hargs
      obtain ⟨p, parts, rfl⟩ := List.exists_cons_of_ne_nil hne
      refine ⟨_, s, (ts, arg) :: p :: parts, ?_, by simp, .more span hjoined, rfl,
        List.forall_mem_cons.2 ⟨hderives, hparts⟩⟩
      simpa using h₁.trans (h₂.cons h₃)
    · obtain ⟨c₂, hclose, hread⟩ := bind_eq_ok.1 hread
      obtain ⟨rfl, rfl⟩ := Prod.mk.inj (Except.ok.inj hread)
      obtain ⟨s, h₂⟩ := Cursor.expect_eq_ok.1 hclose
      exact ⟨ts, s, [(ts, arg)], h₁.trans h₂, by simp, .one ts, rfl, by simpa using hderives⟩

/-- What is read as the arguments of a call are some. -/
theorem Nested.Sound.arguments (h : nested.Sound) (hread : arguments nested c = .ok (args, c')) :
    ∃ ts parts, c.Takes ts c' ∧ AreArguments ts parts ∧ args = parts.map (·.2) ∧
      ∀ p ∈ parts, Derives p.1 p.2 := by
  obtain ⟨c₁, hopen, hread⟩ := bind_eq_ok.1 hread
  obtain ⟨s₁, h₁⟩ := Cursor.expect_eq_ok.1 hopen
  split at hread
  · next c₂ hclose =>
    obtain ⟨s₂, h₂⟩ := Cursor.punctuation?_eq_some.1 hclose
    obtain ⟨rfl, rfl⟩ := Prod.mk.inj (Except.ok.inj hread)
    exact ⟨_, [], h₁.cons h₂, ⟨[], s₁, s₂, .none, rfl⟩, rfl, by simp⟩
  · obtain ⟨us, s₂, parts, h₂, -, hjoined, hargs, hparts⟩ := h.argumentList hread
    exact ⟨_, parts, h₁.cons h₂, ⟨us, s₁, s₂, hjoined, rfl⟩, hargs, hparts⟩

/-! ## Names, literals and chains -/

/-- Behind a parenthesis that starts no cast stands no word for a type. -/
theorem isTypeWord_of_castType? {s : Span} (h : castType? c = .ok none)
    (hopen : c.Takes [⟨.punctuation '(', s⟩] c') :
    ∀ l, c'.next? = some l → l.isTypeWord = false := by
  intro l hl
  rw [castType?, Cursor.punctuation?_eq_some.2 ⟨s, hopen⟩] at h
  rw [Cursor.next?] at hl
  cases htokens : c'.tokens with
  | nil => simp [htokens] at hl
  | cons t rest =>
    obtain ⟨lexeme, span⟩ := t
    obtain rfl : lexeme = l := by simpa [htokens] using hl
    cases lexeme with
    | keyword word =>
      simp only [htokens] at h
      split at h
      · split at h
        · split at h <;> cases h
        · cases h
      · next hword => simpa [Lexeme.isTypeWord] using hword
    | _ => rfl

/-- What is read as a class literal behind a word for a type. -/
theorem takes_classLiteral {c₁ c₂ c₃ : Cursor} {type : TypeRef} {word : Keyword} {span : Span}
    {rest : List Token} (htokens : c.tokens = ⟨.keyword word, span⟩ :: rest)
    (hread : TypeRef.read c = .ok (type, c₁)) (hdot : c₁.expect '.' = .ok c₂)
    (hclass : c₂.keyword? .classOf = some c₃) :
    ∃ ts, c.Takes ts c₃ ∧ Derives ts (Expr.classLiteral (c₃.spanFrom c.start) type) ∧
      15 ≤ (Expr.classLiteral (c₃.spanFrom c.start) type).level := by
  obtain ⟨ts, h₁, hderives, -⟩ := TypeRef.parser_sound _ _ _ _ hread
  obtain ⟨s₁, h₂⟩ := Cursor.expect_eq_ok.1 hdot
  obtain ⟨s₂, h₃⟩ := Cursor.keyword?_eq_some.1 hclass
  have htakes := h₁.trans (h₂.cons h₃)
  rw [htakes.spanFrom_eq (by simp)]
  refine ⟨_, htakes, ?_, Nat.le_refl _⟩
  cases hderives with
  | primitive _ hword hdims => exact .primitiveClass rfl hword hdims
  | plain | diamond | generic =>
    obtain ⟨hhead, -⟩ := List.cons.inj (htokens.symm.trans h₁.tokens)
    cases hhead

/-- What is read behind a reserved word is a derived tree. -/
theorem Nested.Sound.keyword (h : nested.Sound) {word : Keyword} {span : Span}
    {rest : List Token} (htokens : c.tokens = ⟨.keyword word, span⟩ :: rest)
    (hread : Grammar.keyword nested word c.start ⟨rest, span.stop⟩ c = .ok (e, c')) :
    ∃ ts, c.Takes ts c' ∧ Derives ts e ∧ 15 ≤ e.level := by
  have hword := Cursor.takes_head htokens
  have hspan : Cursor.spanFrom c.start ⟨rest, span.stop⟩ = span := hword.spanFrom_eq (by simp)
  unfold Grammar.keyword at hread
  split at hread
  case h_6 | h_7 =>
    -- a word for a type starts a class literal
    obtain ⟨⟨type, c₁⟩, hread₁, hread⟩ := bind_eq_ok.1 hread
    obtain ⟨c₂, hdot, hread⟩ := bind_eq_ok.1 hread
    split at hread
    · next hclass =>
      obtain ⟨rfl, rfl⟩ := Prod.mk.inj (Except.ok.inj hread)
      exact takes_classLiteral htokens hread₁ hdot hclass
    · cases hread
  · obtain ⟨rfl, rfl⟩ := Prod.mk.inj (Except.ok.inj hread)
    exact ⟨_, hword, hspan ▸ .boolean span (.inl rfl), Nat.le_refl _⟩
  · obtain ⟨rfl, rfl⟩ := Prod.mk.inj (Except.ok.inj hread)
    exact ⟨_, hword, hspan ▸ .boolean span (.inr rfl), Nat.le_refl _⟩
  · obtain ⟨rfl, rfl⟩ := Prod.mk.inj (Except.ok.inj hread)
    exact ⟨_, hword, hspan ▸ .null span, Nat.le_refl _⟩
  · obtain ⟨rfl, rfl⟩ := Prod.mk.inj (Except.ok.inj hread)
    exact ⟨_, hword, hspan ▸ .this span, Nat.le_refl _⟩
  · obtain ⟨⟨type, c₁⟩, htype, hread⟩ := bind_eq_ok.1 hread
    obtain ⟨ts, h₁, hclass, -⟩ := (TypeRef.parser_sound _).classType htype
    simp only at hread
    split at hread
    · cases hread
    · obtain ⟨⟨args, c₂⟩, hargs, hread⟩ := bind_eq_ok.1 hread
      obtain ⟨us, parts, h₂, harguments, rfl, hparts⟩ := h.arguments hargs
      obtain ⟨rfl, rfl⟩ := Prod.mk.inj (Except.ok.inj hread)
      have htakes := hword.cons (h₁.trans h₂)
      refine ⟨_, htakes, ?_, Nat.le_refl _⟩
      rw [htakes.spanFrom_eq (by simp)]
      exact .creation rfl hclass harguments hparts
  · cases hread
  · cases hread
  · cases hread

/-- What is read as the first operand of a chain is a derived tree of the highest level. -/
theorem Nested.Sound.primary (h : nested.Sound) (hcast : castType? c = .ok none)
    (hread : primary nested c = .ok (e, c')) :
    ∃ ts, c.Takes ts c' ∧ Derives ts e ∧ 15 ≤ e.level := by
  unfold Grammar.primary at hread
  extract_lets start at hread
  split at hread
  · cases hread
  · next token rest htokens =>
    extract_lets behind at hread
    obtain ⟨lexeme, span⟩ := token
    have hfront : c.Takes [⟨lexeme, span⟩] behind := Cursor.takes_head htokens
    have hspan : behind.spanFrom start = span := hfront.spanFrom_eq (by simp)
    split at hread
    · next s hl =>
      obtain rfl : lexeme = .number s := hl
      obtain ⟨rfl, rfl⟩ := Prod.mk.inj (Except.ok.inj hread)
      exact ⟨_, hfront, hspan ▸ .number s span, Nat.le_refl _⟩
    · next v hl =>
      obtain rfl : lexeme = .string v := hl
      obtain ⟨rfl, rfl⟩ := Prod.mk.inj (Except.ok.inj hread)
      exact ⟨_, hfront, hspan ▸ .string v span, Nat.le_refl _⟩
    · next v hl =>
      obtain rfl : lexeme = .character v := hl
      obtain ⟨rfl, rfl⟩ := Prod.mk.inj (Except.ok.inj hread)
      exact ⟨_, hfront, hspan ▸ .character v span, Nat.le_refl _⟩
    · next n hl =>
      obtain rfl : lexeme = .identifier n := hl
      split at hread
      · obtain ⟨⟨args, c₁⟩, hargs, hread⟩ := bind_eq_ok.1 hread
        obtain ⟨us, parts, h₁, harguments, rfl, hparts⟩ := h.arguments hargs
        obtain ⟨rfl, rfl⟩ := Prod.mk.inj (Except.ok.inj hread)
        have htakes := hfront.cons h₁
        refine ⟨_, htakes, ?_, Nat.le_refl _⟩
        rw [htakes.spanFrom_eq (by simp)]
        exact .call rfl harguments hparts
      · obtain ⟨rfl, rfl⟩ := Prod.mk.inj (Except.ok.inj hread)
        exact ⟨_, hfront, hspan ▸ .name n span, Nat.le_refl _⟩
    · next word hl =>
      obtain rfl : lexeme = .keyword word := hl
      exact h.keyword htokens hread
    · next p hl =>
      obtain rfl : lexeme = .punctuation p := hl
      split at hread
      · obtain ⟨⟨inner, c₁⟩, hinner, hread⟩ := bind_eq_ok.1 hread
        obtain ⟨c₂, hclose, hread⟩ := bind_eq_ok.1 hread
        obtain ⟨rfl, rfl⟩ := Prod.mk.inj (Except.ok.inj hread)
        obtain ⟨ts, h₁, hderives, -⟩ := h.assignment _ _ _ hinner
        obtain ⟨s, h₂⟩ := Cursor.expect_eq_ok.1 hclose
        have htakes := hfront.cons (h₁.trans h₂)
        refine ⟨_, htakes, ?_, Nat.le_refl _⟩
        rw [htakes.spanFrom_eq (by simp)]
        refine .enclosed rfl hderives fun t ht => ?_
        obtain ⟨u, us, rfl⟩ := List.exists_cons_of_ne_nil hderives.ne_nil
        obtain rfl := Option.some.inj ht
        exact isTypeWord_of_castType? hcast hfront _ h₁.next?
      · cases hread
      · cases hread
      · cases hread
    · cases hread

/-- A class literal is read behind what spells the name of a class. -/
theorem classLiteral_eq_ok {start dims : Nat} {receiver : Expr} :
    classLiteral start receiver dims c = .ok e ↔ ∃ full, receiver.qualifiedName? = some full ∧
      e = .classLiteral (c.spanFrom start) (.named full [] dims) := by
  rw [classLiteral]
  cases receiver.qualifiedName? with
  | none => simp
  | some full => simp [eq_comm]

/-- The literal of a class behind the tokens that name it. -/
theorem derives_classLiteral {c₁ c₂ : Cursor} {ts ds : List Token} {receiver : Expr} {dims : Nat}
    {s₁ s₂ : Span} (h : c.Takes ts c₁) (hderives : Derives ts receiver)
    (hlink : c₁.Takes (ds ++ [⟨.punctuation '.', s₁⟩, ⟨.keyword .classOf, s₂⟩]) c₂)
    (hdims : TypeRef.Dims ds dims) (hread : classLiteral c.start receiver dims c₂ = .ok e) :
    ∃ vs, c.Takes vs c₂ ∧ Derives vs e ∧ 15 ≤ e.level := by
  obtain ⟨full, hname, rfl⟩ := classLiteral_eq_ok.1 hread
  obtain ⟨n, s, us, rfl, hdotted⟩ := hderives.dotted hname
  have htakes := h.trans hlink
  refine ⟨_, htakes, ?_, Nat.le_refl _⟩
  rw [htakes.spanFrom_eq (by simp)]
  exact .classLiteral rfl hdotted hdims

/-- Each link of a chain keeps what was read a derived tree. -/
theorem Nested.Sound.chainRest (h : nested.Sound) {c₀ : Cursor} {ts : List Token}
    {receiver : Expr} (htakes : c₀.Takes ts c) (hderives : Derives ts receiver)
    (hlevel : 15 ≤ receiver.level)
    (hread : chainRest nested c₀.start n receiver c = .ok (e, c')) :
    ∃ vs, c₀.Takes vs c' ∧ Derives vs e ∧ 15 ≤ e.level := by
  induction n generalizing c ts receiver with
  | zero =>
    obtain ⟨rfl, rfl⟩ := Prod.mk.inj (Except.ok.inj hread)
    exact ⟨ts, htakes, hderives, hlevel⟩
  | succ n ih =>
    rw [Grammar.chainRest] at hread
    split at hread
    · next c₁ hdot =>
      obtain ⟨s₁, h₁⟩ := Cursor.punctuation?_eq_some.1 hdot
      split at hread
      · next c₂ hclass =>
        obtain ⟨s₂, h₂⟩ := Cursor.keyword?_eq_some.1 hclass
        obtain ⟨literal, hliteral, hread⟩ := bind_eq_ok.1 hread
        obtain ⟨vs, hvs, hderives, hlevel⟩ :=
          derives_classLiteral htakes hderives (h₁.cons h₂) .none hliteral
        exact ih hvs hderives hlevel hread
      · obtain ⟨⟨name, c₂⟩, hname, hread⟩ := bind_eq_ok.1 hread
        obtain ⟨s₂, h₂⟩ := Cursor.identifier_eq_ok.1 hname
        simp only at hread
        split at hread
        · obtain ⟨⟨args, c₃⟩, hargs, hread⟩ := bind_eq_ok.1 hread
          obtain ⟨us, parts, h₃, harguments, rfl, hparts⟩ := h.arguments hargs
          have htakes := htakes.trans (h₁.cons (h₂.cons h₃))
          refine ih htakes ?_ (Nat.le_refl _) hread
          rw [htakes.spanFrom_eq (by simp)]
          exact .method rfl hderives hlevel harguments hparts
        · have htakes := htakes.trans (h₁.cons h₂)
          refine ih htakes ?_ (Nat.le_refl _) hread
          rw [htakes.spanFrom_eq (by simp)]
          exact .field rfl hderives hlevel
    · split at hread
      · obtain ⟨rfl, rfl⟩ := Prod.mk.inj (Except.ok.inj hread)
        exact ⟨ts, htakes, hderives, hlevel⟩
      · next c₁ hopen =>
        obtain ⟨s₁, h₁⟩ := Cursor.punctuation?_eq_some.1 hopen
        split at hread
        · rcases hdims : TypeRef.arrayDims c.lastEnd c.tokens with ⟨dims, c₂⟩
          obtain ⟨ds, h₂, hds⟩ := TypeRef.takes_of_arrayDims hdims
          rw [hdims] at hread
          obtain ⟨c₃, hdot, hread⟩ := bind_eq_ok.1 hread
          obtain ⟨s₃, h₃⟩ := Cursor.expect_eq_ok.1 hdot
          split at hread
          · next c₄ hclass =>
            obtain ⟨s₄, h₄⟩ := Cursor.keyword?_eq_some.1 hclass
            obtain ⟨literal, hliteral, hread⟩ := bind_eq_ok.1 hread
            obtain ⟨vs, hvs, hderives, hlevel⟩ :=
              derives_classLiteral htakes hderives (h₂.trans (h₃.cons h₄)) hds hliteral
            exact ih hvs hderives hlevel hread
          · cases hread
        · obtain ⟨⟨position, c₂⟩, hposition, hread⟩ := bind_eq_ok.1 hread
          obtain ⟨us, h₂, hinner, -⟩ := h.assignment _ _ _ hposition
          obtain ⟨c₃, hclose, hread⟩ := bind_eq_ok.1 hread
          obtain ⟨s₃, h₃⟩ := Cursor.expect_eq_ok.1 hclose
          have htakes := htakes.trans (h₁.cons (h₂.trans h₃))
          refine ih htakes ?_ (Nat.le_refl _) hread
          rw [htakes.spanFrom_eq (by simp)]
          exact .index rfl hderives hlevel hinner

/-- What is read as a chain is a derived tree. -/
theorem Nested.Sound.chain (h : nested.Sound) (hcast : castType? c = .ok none)
    (hread : chain nested c = .ok (e, c')) :
    ∃ ts, c.Takes ts c' ∧ Derives ts e ∧ 15 ≤ e.level := by
  obtain ⟨⟨receiver, c₁⟩, hreceiver, hread⟩ := bind_eq_ok.1 hread
  obtain ⟨ts, htakes, hderives, hlevel⟩ := h.primary hcast hreceiver
  exact h.chainRest htakes hderives hlevel hread

/-! ## Operators with one operand -/

/-- The operators behind an operand and their signs. -/
theorem sign_of_postfixOp? {s : Sign} {op : UnaryOp} (h : postfixOp? s = some op) :
    s = op.sign ∧ op.isBehind = true := by
  cases s <;> cases h <;> exact ⟨rfl, rfl⟩

/-- The operators in front of an operand and their signs. -/
theorem sign_of_prefixOp? {s : Sign} {op : UnaryOp} (h : prefixOp? s = some op) :
    s = op.sign ∧ op.isBehind = false := by
  cases s <;> cases h <;> exact ⟨rfl, rfl⟩

/-- Each operator behind keeps what was read a derived tree. -/
theorem sound_postfixedRest {c₀ : Cursor} {ts : List Token} {operand : Expr}
    (htakes : c₀.Takes ts c) (hderives : Derives ts operand) (hlevel : 14 ≤ operand.level)
    (hread : postfixedRest c₀.start n operand c = .ok (e, c')) :
    ∃ vs, c₀.Takes vs c' ∧ Derives vs e ∧ 14 ≤ e.level := by
  induction n generalizing c ts operand with
  | zero =>
    obtain ⟨rfl, rfl⟩ := Prod.mk.inj (Except.ok.inj hread)
    exact ⟨ts, htakes, hderives, hlevel⟩
  | succ n ih =>
    rw [postfixedRest] at hread
    split at hread
    · next op c₁ hsign =>
      obtain ⟨s, span, hop, h₁⟩ := Cursor.signOf?_eq_some.1 hsign
      obtain ⟨rfl, hbehind⟩ := sign_of_postfixOp? hop
      have htakes := htakes.trans h₁
      refine ih htakes ?_ (by simp [Expr.level, hbehind]) hread
      rw [htakes.spanFrom_eq (by simp)]
      exact .behind rfl hbehind hderives hlevel
    · obtain ⟨rfl, rfl⟩ := Prod.mk.inj (Except.ok.inj hread)
      exact ⟨ts, htakes, hderives, hlevel⟩

/-- What is read as an operand with operators behind it is a derived tree. -/
theorem Nested.Sound.postfixed (h : nested.Sound) (hcast : castType? c = .ok none)
    (hread : postfixed nested c = .ok (e, c')) :
    ∃ ts, c.Takes ts c' ∧ Derives ts e ∧ 14 ≤ e.level := by
  obtain ⟨⟨operand, c₁⟩, hoperand, hread⟩ := bind_eq_ok.1 hread
  obtain ⟨ts, htakes, hderives, hlevel⟩ := h.chain hcast hoperand
  exact sound_postfixedRest htakes hderives (Nat.le_of_succ_le hlevel) hread

/-- A cast has its type between parentheses, and its operand may follow it. -/
theorem castType?_eq_some {type : TypeRef} (h : castType? c = .ok (some (type, c'))) :
    ∃ ts s₁ s₂, c.Takes (⟨.punctuation '(', s₁⟩ :: (ts ++ [⟨.punctuation ')', s₂⟩])) c' ∧
      TypeRef.Derives ts type ∧ ∀ t l, ts.head? = some t → c'.next? = some l →
        t.lexeme.isTypeWord = true ∨ l.startsOperand = true := by
  unfold castType? at h
  split at h
  · cases h
  · next behind hopen =>
    obtain ⟨s₁, h₁⟩ := Cursor.punctuation?_eq_some.1 hopen
    -- The word that decides between the two kinds of types is the first token of the type.
    have hhead {t u : Token} {rest ts : List Token} {c₂ : Cursor} (htokens : behind.tokens = t :: rest)
        (hts : behind.Takes ts c₂) (hu : ts.head? = some u) : u = t := by
      obtain ⟨us, rfl⟩ := List.head?_eq_some_iff.1 hu
      exact (List.cons.inj (hts.tokens.symm.trans htokens)).1
    -- types with a reserved name need no look behind the parenthesis
    split at h
    · next word span rest htokens =>
      split at h
      · next hword =>
        split at h
        · next type' c₂ hread =>
          split at h
          · next c₃ hclose =>
            obtain ⟨rfl, rfl⟩ := Prod.mk.inj (Option.some.inj (Except.ok.inj h))
            obtain ⟨s₂, h₃⟩ := Cursor.punctuation?_eq_some.1 hclose
            obtain ⟨ts, h₂, hderives, -⟩ := TypeRef.parser_sound _ _ _ _ hread
            refine ⟨ts, s₁, s₂, h₁.cons (h₂.trans h₃), hderives, fun t l ht _ => .inl ?_⟩
            rw [hhead htokens h₂ ht]
            exact hword
          · cases h
        · cases h
      · cases h
    · split at h
      · next type' c₂ hread =>
        split at h
        · next c₃ hclose =>
          split at h
          · next hstart =>
            obtain ⟨rfl, rfl⟩ := Prod.mk.inj (Option.some.inj (Except.ok.inj h))
            obtain ⟨s₂, h₃⟩ := Cursor.punctuation?_eq_some.1 hclose
            obtain ⟨ts, h₂, hderives, -⟩ := TypeRef.parser_sound _ _ _ _ hread
            refine ⟨ts, s₁, s₂, h₁.cons (h₂.trans h₃), hderives, fun t l _ hl => .inr ?_⟩
            exact Cursor.startsOperand_of_next? hstart hl
          · cases h
        · cases h
      · cases h
    · cases h

/-- What is read as an operand with operators and casts in front is a derived tree. -/
theorem Nested.Sound.prefixedOf (h : nested.Sound) :
    Grammar.Sound 13 (Grammar.prefixed nested) := by
  intro c e c' hread
  unfold Grammar.prefixed at hread
  extract_lets start at hread
  split at hread
  · next op c₁ hsign =>
    obtain ⟨s, span, hop, h₁⟩ := Cursor.signOf?_eq_some.1 hsign
    obtain ⟨rfl, hbefore⟩ := sign_of_prefixOp? hop
    obtain ⟨⟨operand, c₂⟩, hoperand, hread⟩ := bind_eq_ok.1 hread
    obtain ⟨rfl, rfl⟩ := Prod.mk.inj (Except.ok.inj hread)
    obtain ⟨ts, h₂, hderives, hlevel⟩ := h.prefixed _ _ _ hoperand
    have htakes := h₁.cons h₂
    refine ⟨_, htakes, ?_, by simp [Expr.level, hbefore]⟩
    rw [htakes.spanFrom_eq (by simp)]
    exact .before rfl hbefore hderives hlevel
  · obtain ⟨cast, hcast, hread⟩ := bind_eq_ok.1 hread
    split at hread
    · next type c₁ =>
      obtain ⟨⟨operand, c₂⟩, hoperand, hread⟩ := bind_eq_ok.1 hread
      obtain ⟨rfl, rfl⟩ := Prod.mk.inj (Except.ok.inj hread)
      obtain ⟨ts, s₁, s₂, h₁, htype, hstart⟩ := castType?_eq_some hcast
      obtain ⟨us, h₂, hderives, hlevel⟩ := h.prefixed _ _ _ hoperand
      have htakes := h₁.trans h₂
      refine ⟨_, htakes, ?_, Nat.le_refl _⟩
      rw [htakes.spanFrom_eq (by simp)]
      refine @Derives.cast ts us _ type operand s₁ s₂ (by simp) htype hderives hlevel fun t u ht hu => ?_
      obtain ⟨vs, rfl⟩ := List.head?_eq_some_iff.1 hu
      exact hstart t _ ht h₂.next?
    · obtain ⟨ts, htakes, hderives, hlevel⟩ := h.postfixed hcast hread
      exact ⟨ts, htakes, hderives, Nat.le_of_succ_le hlevel⟩

/-! ## Operators with two operands -/

/-- What is read as an operator is one of the level. -/
def Operators (level : Nat) (operator? : Cursor → Option (BinaryOp × Cursor)) : Prop :=
  ∀ c op c', operator? c = some (op, c') →
    op.level = level ∧ ∃ os, c.Takes os c' ∧ Token.AreSigns op.signs os

/-- A level whose operators are single signs. -/
theorem operators_signOf? {level : Nat} {f : Sign → Option BinaryOp}
    (h : ∀ s op, f s = some op → op.level = level ∧ op.signs = [s]) :
    Operators level (·.signOf? f) := by
  intro c op c' hread
  obtain ⟨s, span, hs, htakes⟩ := Cursor.signOf?_eq_some.1 hread
  obtain ⟨hlevel, hsigns⟩ := h s op hs
  exact ⟨hlevel, _, htakes, hsigns ▸ ⟨rfl, nofun, trivial⟩⟩

/-- A level with one operator, a single sign. -/
theorem operators_sign? {s : Sign} {op : BinaryOp} (h : op.signs = [s]) :
    Operators op.level fun c => (c.sign? s).map fun c => (op, c) := by
  intro c op' c' hread
  obtain ⟨c₁, hsign, heq⟩ := Option.map_eq_some_iff.1 hread
  obtain ⟨rfl, rfl⟩ := Prod.mk.inj heq
  obtain ⟨span, htakes⟩ := Cursor.sign?_eq_some.1 hsign
  exact ⟨rfl, _, htakes, h ▸ ⟨rfl, nofun, trivial⟩⟩

/-- What is read as a shift is one. -/
theorem operators_shift : Operators 10 Cursor.shiftOperator? := by
  intro c op c' hread
  have hright {s₁ s₂ : Span} {rest : List Token}
      (htokens : c.tokens = ⟨.sign .greater, s₁⟩ :: ⟨.sign .greater, s₂⟩ :: rest)
      (htouch : Token.touches ⟨.sign .greater, s₁⟩ ⟨.sign .greater, s₂⟩ = true)
      (heq : (BinaryOp.rightShift, Cursor.mk rest s₂.stop) = (op, c')) :
      op.level = 10 ∧ ∃ os, c.Takes os c' ∧ Token.AreSigns op.signs os := by
    obtain ⟨rfl, rfl⟩ := Prod.mk.inj heq
    refine ⟨rfl, [_, _], ⟨htokens, rfl⟩, rfl, ?_, rfl, nofun, trivial⟩
    rintro u ⟨⟩
    exact htouch
  unfold Cursor.shiftOperator? at hread
  split at hread
  · next span rest htokens =>
    obtain ⟨rfl, rfl⟩ := Prod.mk.inj (Option.some.inj hread)
    exact ⟨rfl, [_], Cursor.takes_head htokens, rfl, nofun, trivial⟩
  · next s₁ s₂ rest htokens =>
    split at hread
    · next htouch =>
      split at hread
      · next s₃ rest' =>
        split at hread
        · next htouch' =>
          obtain ⟨rfl, rfl⟩ := Prod.mk.inj (Option.some.inj hread)
          refine ⟨rfl, [_, _, _], ⟨htokens, rfl⟩, rfl, ?_, rfl, ?_, rfl, nofun, trivial⟩
          · rintro u ⟨⟩
            exact htouch
          · rintro u ⟨⟩
            exact htouch'
        · exact hright htokens htouch (Option.some.inj hread)
      · split at hread
        · cases hread
        · exact hright htokens htouch (Option.some.inj hread)
      · exact hright htokens htouch (Option.some.inj hread)
    · cases hread
  · cases hread

/-- Each operator with its operand keeps what was read a derived tree of the level. -/
theorem sound_binaryRest {operator? : Cursor → Option (BinaryOp × Cursor)} {level : Nat}
    {next : Parser Expr} (hop : Operators level operator?) (hne : level ≠ 9)
    (hnext : Grammar.Sound (level + 1) next) {c₀ : Cursor} {ts : List Token} {left : Expr}
    (htakes : c₀.Takes ts c) (hderives : Derives ts left) (hlevel : level ≤ left.level)
    (hread : binaryRest operator? next c₀.start n left c = .ok (e, c')) :
    ∃ vs, c₀.Takes vs c' ∧ Derives vs e ∧ level ≤ e.level := by
  induction n generalizing c ts left with
  | zero =>
    obtain ⟨rfl, rfl⟩ := Prod.mk.inj (Except.ok.inj hread)
    exact ⟨ts, htakes, hderives, hlevel⟩
  | succ n ih =>
    rw [binaryRest] at hread
    split at hread
    · next op c₁ hsign =>
      obtain ⟨rfl, os, h₁, hsigns⟩ := hop _ _ _ hsign
      obtain ⟨⟨right, c₂⟩, hright, hread⟩ := bind_eq_ok.1 hread
      obtain ⟨us, h₂, hderives', hlevel'⟩ := hnext _ _ _ hright
      have htakes := htakes.trans (h₁.trans h₂)
      refine ih htakes ?_ (Nat.le_refl _) hread
      rw [htakes.spanFrom_eq (by simp [hderives.ne_nil])]
      exact .binary rfl hsigns hderives hderives' hlevel hlevel' fun h => absurd (h ▸ rfl) hne
    · obtain ⟨rfl, rfl⟩ := Prod.mk.inj (Except.ok.inj hread)
      exact ⟨ts, htakes, hderives, hlevel⟩

/-- What is read as a level of operators is a derived tree of the level. -/
theorem sound_binaryLevel {operator? : Cursor → Option (BinaryOp × Cursor)} {level : Nat}
    {next : Parser Expr} (hop : Operators level operator?) (hne : level ≠ 9)
    (hnext : Grammar.Sound (level + 1) next) : Grammar.Sound level (binaryLevel operator? next) := by
  intro c e c' hread
  obtain ⟨⟨left, c₁⟩, hleft, hread⟩ := bind_eq_ok.1 hread
  obtain ⟨ts, htakes, hderives, hlevel⟩ := hnext _ _ _ hleft
  exact sound_binaryRest hop hne hnext htakes hderives (Nat.le_of_succ_le hlevel) hread

/-- What is read as a comparison is one. -/
theorem operators_comparison : Operators 9 comparison? := by
  intro c op c' hread
  obtain ⟨s, span, hs, htakes⟩ := Cursor.signOf?_eq_some.1 hread
  have hone : op.level = 9 ∧ op.signs = [s] := by
    cases s with
    | less | lessEqual | greaterEqual =>
      obtain rfl := Option.some.inj hs
      exact ⟨rfl, rfl⟩
    | greater =>
      obtain ⟨-, hs⟩ := Option.ite_none_right_eq_some.1 hs
      obtain rfl := Option.some.inj hs
      exact ⟨rfl, rfl⟩
    | _ => cases hs
  exact ⟨hone.1, _, htakes, hone.2 ▸ ⟨rfl, nofun, trivial⟩⟩

/-- Behind a type test that ends in a name no `<` is left. -/
theorem sound_relationalRest {next : Parser Expr} (hnext : Grammar.Sound 10 next) {c₀ : Cursor}
    {ts : List Token} {left : Expr} (htakes : c₀.Takes ts c) (hderives : Derives ts left)
    (hlevel : 9 ≤ left.level)
    (hless : left.isTypeTest = true → EndsInName ts → c.next? ≠ some (.sign .less))
    (hread : relationalRest next c₀.start n left c = .ok (e, c')) :
    ∃ vs, c₀.Takes vs c' ∧ Derives vs e ∧ 9 ≤ e.level := by
  -- By induction on the rounds; the left operand grows by one operator in each.
  induction n generalizing c ts left with
  | zero =>
    obtain ⟨rfl, rfl⟩ := Prod.mk.inj (Except.ok.inj hread)
    exact ⟨ts, htakes, hderives, hlevel⟩
  | succ n ih =>
    rw [relationalRest] at hread
    split at hread
    · next c₁ hword =>
      obtain ⟨span, h₁⟩ := Cursor.keyword?_eq_some.1 hword
      obtain ⟨⟨type, c₂⟩, htype, hread⟩ := bind_eq_ok.1 hread
      obtain ⟨us, h₂, hderives', hends⟩ := TypeRef.parser_sound _ _ _ _ htype
      have htakes := htakes.trans (h₁.cons h₂)
      refine ih htakes ?_ (Nat.le_refl _) (fun _ hname => hends ?_) hread
      · rw [htakes.spanFrom_eq (by simp)]
        exact .instanceOf rfl hderives hlevel hderives'
      · obtain ⟨u, us, rfl⟩ := List.exists_cons_of_ne_nil hderives'.ne_nil
        rw [endsInName_append_cons] at hname
        exact endsInName_append_cons.1 (show EndsInName ([_] ++ u :: us) from hname)
    · split at hread
      · next op c₁ hsign =>
        obtain ⟨hop, os, h₁, hsigns⟩ := operators_comparison _ _ _ hsign
        obtain ⟨⟨right, c₂⟩, hright, hread⟩ := bind_eq_ok.1 hread
        obtain ⟨us, h₂, hderives', hlevel'⟩ := hnext _ _ _ hright
        have htakes := htakes.trans (h₁.trans h₂)
        refine ih htakes ?_ ?_ ?_ hread
        -- The derivation comes last, since it is the goal that takes an argument.
        rotate_left
        · exact Nat.le_of_eq hop.symm
        · exact fun htest => nomatch htest
        rw [htakes.spanFrom_eq (by simp [hderives.ne_nil])]
        refine .binary rfl hsigns hderives hderives' (hop ▸ hlevel) (hop ▸ hlevel') ?_
        rintro rfl htest hname
        obtain ⟨t, os, rfl⟩ : ∃ t us, os = t :: us := by
          cases os with
          | nil => cases hsigns
          | cons t us => exact ⟨t, us, rfl⟩
        exact hless htest hname (by rw [h₁.next?, hsigns.1])
      · obtain ⟨rfl, rfl⟩ := Prod.mk.inj (Except.ok.inj hread)
        exact ⟨ts, htakes, hderives, hlevel⟩

/-- What is read as a level with one operator is a derived tree of the level. -/
theorem sound_singleLevel {s : Sign} {op : BinaryOp} {next : Parser Expr} (hsigns : op.signs = [s])
    (hne : op.level ≠ 9) (hnext : Grammar.Sound (op.level + 1) next) :
    Grammar.Sound op.level (singleLevel s op next) :=
  sound_binaryLevel (operators_sign? hsigns) hne hnext

/-- What is read as operators with two operands is a derived tree. -/
theorem Nested.Sound.disjunction (h : nested.Sound) :
    Grammar.Sound 3 (Grammar.disjunction nested) := by
  have hmultiplicative : Grammar.Sound 12 (multiplicative nested) := by
    refine sound_binaryLevel (operators_signOf? fun s op hs => ?_) (by decide) h.prefixedOf
    cases s <;> cases hs <;> exact ⟨rfl, rfl⟩
  have hadditive : Grammar.Sound 11 (additive nested) := by
    refine sound_binaryLevel (operators_signOf? fun s op hs => ?_) (by decide) hmultiplicative
    cases s <;> cases hs <;> exact ⟨rfl, rfl⟩
  have hshift : Grammar.Sound 10 (shift nested) :=
    sound_binaryLevel operators_shift (by decide) hadditive
  have hrelational : Grammar.Sound 9 (relational nested) := by
    intro c e c' hread
    obtain ⟨⟨left, c₁⟩, hleft, hread⟩ := bind_eq_ok.1 hread
    obtain ⟨ts, htakes, hderives, hlevel⟩ := hshift _ _ _ hleft
    refine sound_relationalRest hshift htakes hderives (Nat.le_of_succ_le hlevel) ?_ hread
    intro htest
    cases left with
    | instanceOf => exact absurd hlevel (show ¬ 10 ≤ 9 by decide)
    | _ => cases htest
  have hequality : Grammar.Sound 8 (equality nested) := by
    refine sound_binaryLevel (operators_signOf? fun s op hs => ?_) (by decide) hrelational
    cases s <;> cases hs <;> exact ⟨rfl, rfl⟩
  have hbitAnd : Grammar.Sound 7 (bitAnd nested) := sound_singleLevel rfl (by decide) hequality
  have hxor : Grammar.Sound 6 (xor nested) := sound_singleLevel rfl (by decide) hbitAnd
  have hbitOr : Grammar.Sound 5 (bitOr nested) := sound_singleLevel rfl (by decide) hxor
  have hconjunction : Grammar.Sound 4 (conjunction nested) :=
    sound_singleLevel rfl (by decide) hbitOr
  exact sound_singleLevel rfl (by decide) hconjunction

/-! ## Conditionals and assignments -/

/-- What is read as a conditional is a derived tree. -/
theorem Nested.Sound.conditionalOf (h : nested.Sound) :
    Grammar.Sound 2 (Grammar.conditional nested) := by
  intro c e c' hread
  obtain ⟨⟨condition, c₁⟩, hcondition, hread⟩ := bind_eq_ok.1 hread
  obtain ⟨ts, htakes, hderives, hlevel⟩ := h.disjunction _ _ _ hcondition
  simp only at hread
  split at hread
  · obtain ⟨rfl, rfl⟩ := Prod.mk.inj (Except.ok.inj hread)
    exact ⟨ts, htakes, hderives, Nat.le_of_succ_le hlevel⟩
  · next c₂ hquestion =>
    obtain ⟨s₁, h₂⟩ := Cursor.sign?_eq_some.1 hquestion
    obtain ⟨⟨whenTrue, c₃⟩, htrue, hread⟩ := bind_eq_ok.1 hread
    obtain ⟨us, h₃, hderives₁, -⟩ := h.assignment _ _ _ htrue
    obtain ⟨c₄, hcolon, hread⟩ := bind_eq_ok.1 hread
    obtain ⟨s₂, h₄⟩ := Cursor.expect_eq_ok.1 hcolon
    obtain ⟨⟨whenFalse, c₅⟩, hfalse, hread⟩ := bind_eq_ok.1 hread
    obtain ⟨vs, h₅, hderives₂, hlevel₂⟩ := h.conditional _ _ _ hfalse
    obtain ⟨rfl, rfl⟩ := Prod.mk.inj (Except.ok.inj hread)
    have htakes := htakes.trans (h₂.cons (h₃.trans (h₄.cons h₅)))
    refine ⟨_, htakes, ?_, Nat.le_refl _⟩
    rw [htakes.spanFrom_eq (by simp)]
    exact .conditional rfl hderives hderives₁ hderives₂ hlevel hlevel₂

/-- What is read as an assignment operator is its signs. -/
theorem areSigns_of_assignOperator? {op : AssignOp} (h : c.assignOperator? = some (op, c')) :
    ∃ os, c.Takes os c' ∧ Token.AreSigns op.signs os := by
  unfold Cursor.assignOperator? at h
  split at h
  · next s₁ s₂ rest htokens =>
    obtain ⟨htouch, heq⟩ := Option.ite_none_right_eq_some.1 h
    obtain ⟨rfl, rfl⟩ := Prod.mk.inj (Option.some.inj heq)
    refine ⟨[_, _], ⟨htokens, rfl⟩, rfl, ?_, rfl, nofun, trivial⟩
    rintro u ⟨⟩
    exact htouch
  · next s₁ s₂ s₃ rest htokens =>
    obtain ⟨htouch, heq⟩ := Option.ite_none_right_eq_some.1 h
    obtain ⟨rfl, rfl⟩ := Prod.mk.inj (Option.some.inj heq)
    rw [Bool.and_eq_true] at htouch
    refine ⟨[_, _, _], ⟨htokens, rfl⟩, rfl, ?_, rfl, ?_, rfl, nofun, trivial⟩
    · rintro u ⟨⟩
      exact htouch.1
    · rintro u ⟨⟩
      exact htouch.2
  · obtain ⟨s, span, hs, htakes⟩ := Cursor.signOf?_eq_some.1 h
    have hsigns : op.signs = [s] := by cases s <;> cases hs <;> rfl
    exact ⟨_, htakes, hsigns ▸ ⟨rfl, nofun, trivial⟩⟩

/-- What is read as an assignment is a derived tree. -/
theorem Nested.Sound.assignmentOf (h : nested.Sound) :
    Grammar.Sound 1 (Grammar.assignment nested) := by
  intro c e c' hread
  obtain ⟨⟨target, c₁⟩, htarget, hread⟩ := bind_eq_ok.1 hread
  obtain ⟨ts, htakes, hderives, hlevel⟩ := h.conditionalOf _ _ _ htarget
  simp only at hread
  split at hread
  · obtain ⟨rfl, rfl⟩ := Prod.mk.inj (Except.ok.inj hread)
    exact ⟨ts, htakes, hderives, Nat.le_of_succ_le hlevel⟩
  · next op c₂ hop =>
    obtain ⟨os, h₂, hsigns⟩ := areSigns_of_assignOperator? hop
    split at hread
    · next hcan =>
      obtain ⟨⟨value, c₃⟩, hvalue, hread⟩ := bind_eq_ok.1 hread
      obtain ⟨us, h₃, hderives₁, -⟩ := h.assignment _ _ _ hvalue
      obtain ⟨rfl, rfl⟩ := Prod.mk.inj (Except.ok.inj hread)
      have htakes := htakes.trans (h₂.trans h₃)
      refine ⟨_, htakes, ?_, Nat.le_refl _⟩
      rw [htakes.spanFrom_eq (by simp [hderives.ne_nil])]
      exact .assign rfl hsigns hderives hderives₁ hcan
    · cases hread

/-- The reader is sound however deep it may go. -/
theorem Nested.sound_ofDepth (n : Nat) : (Nested.ofDepth n).Sound := by
  induction n with
  | zero => exact ⟨nofun, nofun, nofun⟩
  | succ n ih => exact ⟨ih.assignmentOf, ih.conditionalOf, ih.prefixedOf⟩

end Grammar

/-- Tokens that are read as an expression are that expression. -/
theorem Expr.derives_of_ofTokens {ts : List Token} {e : Expr} (h : ofTokens ts = .ok e) :
    Derives ts e := by
  unfold ofTokens at h
  split at h
  · cases h
  · obtain ⟨⟨e', c⟩, hread, h⟩ := bind_eq_ok.1 h
    obtain ⟨⟨⟩, hend, h⟩ := bind_eq_ok.1 h
    obtain rfl := Except.ok.inj h
    obtain ⟨us, htakes, hderives, -⟩ :=
      (Grammar.Nested.sound_ofDepth _).assignment _ _ _ hread
    have hrest : c.tokens = [] := by
      unfold Cursor.expectEnd at hend
      split at hend
      · assumption
      · cases hend
    have htokens : ts = us ++ c.tokens := htakes.tokens
    rw [hrest, List.append_nil] at htokens
    exact htokens ▸ hderives

end Stencil
