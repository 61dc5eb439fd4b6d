import Stencil.Proofs.Expr.Grip

/-!
# Casts and parentheses

A parenthesis before an expression could start a cast. The reader looks for a type and the closing
parenthesis behind it, and what stands behind that decides. To know that an expression in parentheses
is not taken for a cast, one has to know which closing parenthesis the reader finds.

Types have no parentheses (`TypeRef.Derives.isParenthesis`), and an expression closes none that it did
not open: its first parenthesis is an opening one (`Derives.opensFirst`). So a list that has no
parentheses up to a closing one and a list that opens its parentheses first agree only up to that
closing parenthesis (`OpensFirst.append_inj`), and it is the one that closes the expression.

**The result** is `Grammar.castType?_eq_none`: an operand behind an operator or inside of a chain is
not read as a cast. What closes the parenthesis of such an operand is followed by nothing that a cast
could have as its operand (`Derives.closesOperand`).

**What it does not establish.** Nothing is said of parentheses that do start a cast; those are read by
the completeness of the reader of types.
-/

namespace Stencil

/-- Whether the token is a parenthesis. -/
def Token.isParenthesis (t : Token) : Bool :=
  t.lexeme = .punctuation '(' || t.lexeme = .punctuation ')'

/-- The first parenthesis of the tokens, if there is one, is an opening one. -/
def OpensFirst (ts : List Token) : Prop :=
  ∀ t, ts.find? (·.isParenthesis) = some t → t.lexeme = .punctuation '('

namespace OpensFirst

variable {ts us : List Token} {t : Token}

/-- Tokens without parentheses open them first. -/
theorem of_any (h : ts.any (·.isParenthesis) = false) : OpensFirst ts := by
  intro t ht
  have hsome := List.find?_some ht
  rw [List.any_eq_false] at h
  exact absurd hsome (h t (List.mem_of_find?_eq_some ht))

/-- Tokens that open their parentheses first may follow each other. -/
theorem append (h : OpensFirst ts) (h' : OpensFirst us) : OpensFirst (ts ++ us) := by
  intro t ht
  rw [List.find?_append, Option.or_eq_some_iff] at ht
  rcases ht with ht | ⟨-, ht⟩
  · exact h t ht
  · exact h' t ht

/-- A token that is no parenthesis may stand in front. -/
theorem cons (ht : t.isParenthesis = false) (h : OpensFirst ts) : OpensFirst (t :: ts) :=
  (of_any (by simpa using ht) : OpensFirst [t]).append h

/-- What starts with an opening parenthesis opens it first. -/
theorem opened (ts : List Token) (span : Span) : OpensFirst (⟨.punctuation '(', span⟩ :: ts) := by
  intro t ht
  obtain rfl := Option.some.inj ht
  rfl

/-- A list that opens its parentheses first and one that has none are the same before the first
closing one. -/
theorem append_inj {t u : Token} {rest rest' : List Token} (h : OpensFirst ts)
    (hus : us.any (·.isParenthesis) = false) (ht : t.lexeme = .punctuation ')')
    (hu : u.lexeme = .punctuation ')') (heq : ts ++ t :: rest = us ++ u :: rest') :
    ts = us ∧ rest = rest' := by
  induction ts generalizing us with
  | nil =>
    cases us with
    | nil => exact ⟨rfl, (List.cons.inj heq).2⟩
    | cons v us =>
      obtain ⟨rfl, -⟩ := List.cons.inj heq
      simp [Token.isParenthesis, ht] at hus
  | cons v ts ih =>
    cases us with
    | nil =>
      obtain ⟨rfl, -⟩ := List.cons.inj heq
      have hopen := h v (by simp [Token.isParenthesis, hu])
      rw [hu] at hopen
      cases hopen
    | cons w us =>
      obtain ⟨rfl, htail⟩ := List.cons.inj heq
      rw [List.any_cons, Bool.or_eq_false_iff] at hus
      obtain ⟨rfl, hrest⟩ := ih (fun x hx => h x (by simp [hus.1, hx])) hus.2 htail
      exact ⟨rfl, hrest⟩

end OpensFirst

/-- Signs are no parentheses. -/
theorem Token.AreSigns.isParenthesis {ss : List Sign} {os : List Token} (h : AreSigns ss os) :
    os.any (·.isParenthesis) = false := by
  induction ss generalizing os with
  | nil =>
    obtain rfl := areSigns_nil.1 h
    rfl
  | cons s ss ih =>
    obtain ⟨span, ts, rfl, -, h⟩ := areSigns_cons.1 h
    simpa [Token.isParenthesis] using ih h

namespace TypeRef

/-- A dotted name has no parentheses. -/
theorem Dotted.isParenthesis {name full : String} {ts : List Token} (h : Dotted name ts full) :
    ts.any (·.isParenthesis) = false := by
  induction h with
  | stop => rfl
  | dot s₁ s₂ _ ih => simpa [Token.isParenthesis] using ih

/-- Dimensions have no parentheses. -/
theorem Dims.isParenthesis {dims : Nat} {ts : List Token} (h : Dims ts dims) :
    ts.any (·.isParenthesis) = false := by
  induction h with
  | none => rfl
  | dim s₁ s₂ _ ih => simpa [Token.isParenthesis] using ih

/-- A type has no parentheses. -/
theorem Derives.isParenthesis {ts : List Token} {t : TypeRef} (h : Derives ts t) :
    ts.any (·.isParenthesis) = false := by
  induction h with
  | primitive span hword hdims => simpa [Token.isParenthesis] using hdims.isParenthesis
  | plain span hname hdims | diamond span s₁ s₂ hname hdims =>
    simp only [List.any_append, List.any_cons, hname.isParenthesis, hdims.isParenthesis]
    rfl
  | @generic name full ts us ds parts dims span s₁ s₂ hname hne hjoined hparts hdims ih =>
    have hus : us.any (·.isParenthesis) = false := by
      have hall : ∀ vs ∈ parts.map (·.1), vs.any (·.isParenthesis) = false := by
        intro vs hvs
        obtain ⟨p, hp, rfl⟩ := List.mem_map.1 hvs
        by_cases hwild : IsWildcard p
        · obtain ⟨-, span, hp⟩ := hwild
          rw [hp]
          rfl
        · exact ih p hp hwild
      clear hparts ih hne
      generalize parts.map (·.1) = vss at hjoined hall
      induction hjoined with
      | none => rfl
      | one vs => exact hall vs (by simp)
      | more span _ ih =>
        rw [List.any_append, List.any_cons, hall _ (by simp),
          ih fun vs hvs => hall vs (List.mem_cons_of_mem _ hvs)]
        rfl
    simp only [List.any_append, List.any_cons, hname.isParenthesis, hdims.isParenthesis, hus]
    rfl

end TypeRef

namespace Expr

variable {ts us : List Token} {e : Expr}

/-- Arguments start with their parenthesis. -/
theorem AreArguments.opensFirst {parts : List (List Token × Expr)} (h : AreArguments ts parts) :
    OpensFirst ts := by
  obtain ⟨us, s₁, s₂, -, rfl⟩ := h
  exact .opened _ _

/-- The first parenthesis of an expression is an opening one. -/
theorem Derives.opensFirst (h : Derives ts e) : OpensFirst ts := by
  -- The parentheses of a node are its own or those of its parts, one part after the other.
  induction h with
  | number | string | character | boolean | null | name | this => exact .of_any rfl
  | field hvs _ _ ih =>
    subst hvs
    exact ih.append (.of_any rfl)
  | call hvs hargs =>
    subst hvs
    exact .cons rfl hargs.opensFirst
  | method hvs _ _ hargs _ ih =>
    subst hvs
    exact ih.append (.cons rfl (.cons rfl hargs.opensFirst))
  | index hvs _ _ _ ih ih' =>
    subst hvs
    exact ih.append (.cons rfl (ih'.append (.of_any rfl)))
  | creation hvs htype hargs =>
    subst hvs
    exact .cons rfl ((OpensFirst.of_any htype.derives.isParenthesis).append hargs.opensFirst)
  | classLiteral hvs hname hdims =>
    subst hvs
    refine .cons rfl ((OpensFirst.of_any hname.isParenthesis).append ?_)
    exact (OpensFirst.of_any hdims.isParenthesis).append (.of_any rfl)
  | primitiveClass hvs _ hdims =>
    subst hvs
    exact .cons rfl ((OpensFirst.of_any hdims.isParenthesis).append (.of_any rfl))
  | enclosed hvs | cast hvs =>
    subst hvs
    exact .opened _ _
  | behind hvs _ _ _ ih =>
    subst hvs
    exact ih.append (.of_any rfl)
  | before hvs _ _ _ ih =>
    subst hvs
    exact .cons rfl ih
  | instanceOf hvs _ _ htype ih =>
    subst hvs
    exact ih.append (.cons rfl (.of_any htype.isParenthesis))
  | binary hvs hop _ _ _ _ _ ihl ihr =>
    subst hvs
    exact ihl.append ((OpensFirst.of_any hop.isParenthesis).append ihr)
  | conditional hvs _ _ _ _ _ ihc iht ihf =>
    subst hvs
    exact ihc.append (.cons rfl (iht.append (.cons rfl ihf)))
  | assign hvs hop _ _ _ iht ihv =>
    subst hvs
    exact iht.append ((OpensFirst.of_any hop.isParenthesis).append ihv)

/-- The tokens reach behind the closing parenthesis, where they start no operand. -/
def ClosesOperand (ts : List Token) : Prop :=
  ∃ us s rest, ts = us ++ ⟨.punctuation ')', s⟩ :: rest ∧ OpensFirst us ∧
    (∀ u, us.head? = some u → u.lexeme.isTypeWord = false) ∧
    ∀ u, rest.head? = some u → u.lexeme.startsOperand = false

/-- An operand stays closed with more behind it that starts no operand. -/
theorem ClosesOperand.append {vs : List Token} (h : ClosesOperand ts)
    (hvs : ∀ u, vs.head? = some u → u.lexeme.startsOperand = false) : ClosesOperand (ts ++ vs) := by
  obtain ⟨us, s, rest, rfl, hopens, hword, hrest⟩ := h
  refine ⟨us, s, rest ++ vs, by simp, hopens, hword, fun u hu => ?_⟩
  cases rest with
  | nil => exact hvs u hu
  | cons v rest => exact hrest u hu

/-- An operand that starts with a parenthesis closes it. -/
theorem Derives.closesOperand {t : Token} (h : Derives (t :: ts) e) (hlevel : 14 ≤ e.level)
    (ht : t.lexeme = .punctuation '(') : ClosesOperand ts := by
  have hfront {us vs ws : List Token} {d : Expr} (h : Derives us d)
      (heq : t :: vs = us ++ ws) : ∃ us', us = t :: us' ∧ vs = us' ++ ws := by
    obtain ⟨u, us', rfl⟩ := List.exists_cons_of_ne_nil h.ne_nil
    obtain ⟨rfl, rfl⟩ := List.cons.inj heq
    exact ⟨us', rfl, rfl⟩
  generalize hvs : t :: ts = vs at h
  -- Only an expression in parentheses and what is built on one in front start with a parenthesis, at
  -- this level.
  induction h generalizing ts with
  | enclosed heq h hword =>
    obtain ⟨rfl, rfl⟩ := List.cons.inj (hvs.trans heq)
    exact ⟨_, _, [], rfl, h.opensFirst, hword, nofun⟩
  | field heq h hscope ih | method heq h hscope _ _ ih | index heq h hscope _ ih =>
    obtain ⟨us', rfl, rfl⟩ := hfront h (hvs.trans heq)
    refine (ih (Nat.le_of_succ_le hscope) rfl).append ?_
    rintro u ⟨⟩
    rfl
  | @behind _ _ op _ _ heq hop h hoperand ih =>
    obtain ⟨us', rfl, rfl⟩ := hfront h (hvs.trans heq)
    refine (ih hoperand rfl).append ?_
    rintro u ⟨⟩
    cases op with
    | postIncrement | postDecrement => rfl
    | _ => cases hop
  | number | string | character | boolean | null | name | this =>
    obtain ⟨rfl, -⟩ := List.cons.inj hvs
    cases ht
  | call heq | creation heq | classLiteral heq | primitiveClass heq =>
    obtain ⟨rfl, -⟩ := List.cons.inj (hvs.trans heq)
    cases ht
  | before heq hop =>
    rw [level, hop] at hlevel
    exact absurd hlevel (by decide)
  | cast | instanceOf | conditional | assign => exact absurd hlevel (by simp [level])
  | @binary _ _ _ _ op => cases op <;> exact absurd hlevel (by simp [level, BinaryOp.level])

end Expr

/-- An operand behind an operator or inside a chain is not read as a cast. -/
theorem Grammar.castType?_eq_none {c c' : Cursor} {ts : List Token} {e : Expr}
    (htakes : c.Takes ts c') (h : Expr.Derives ts e) (hlevel : 14 ≤ e.level) (hgrip : c'.grip < 16) :
    castType? c = .ok none := by
  rw [castType?]
  split
  · rfl
  · next behind hopen =>
    obtain ⟨s₁, h₁⟩ := Cursor.punctuation?_eq_some.1 hopen
    obtain ⟨t, ts, rfl, -⟩ := h.first
    obtain rfl : t = ⟨.punctuation '(', s₁⟩ :=
      (List.cons.inj (htakes.tokens.symm.trans h₁.tokens)).1
    obtain ⟨c₁, h₂, htakes⟩ := htakes.uncons
    obtain rfl := h₁.det h₂
    obtain ⟨us, s₂, rest, rfl, hopens, hword, hrest⟩ := h.closesOperand hlevel rfl
    have htokens : behind.tokens = us ++ ⟨.punctuation ')', s₂⟩ :: (rest ++ c'.tokens) := by
      rw [htakes.tokens, List.append_assoc, List.cons_append]
    split
    · next word span tail hhead =>
      refine if_neg ?_
      rw [hhead] at htokens
      cases us with
      | nil => cases (List.cons.inj htokens).1
      | cons u us =>
        obtain ⟨rfl, -⟩ := List.cons.inj htokens
        simpa [Lexeme.isTypeWord] using hword _ rfl
    · split
      · next type c₁ hread =>
        split
        · next c₂ hclose =>
          obtain ⟨s₃, h₃⟩ := Cursor.punctuation?_eq_some.1 hclose
          obtain ⟨ws, h₂, htype, -⟩ := TypeRef.parser_sound _ _ _ _ hread
          have heq := htokens.symm.trans (h₂.trans h₃).tokens
          rw [List.append_assoc] at heq
          -- the parenthesis behind the type is the one that closes the operand
          have htail : rest ++ c'.tokens = c₂.tokens :=
            (hopens.append_inj htype.isParenthesis rfl rfl heq).2
          refine if_neg ?_
          rw [Bool.not_eq_true, Cursor.startsOperand_eq, Cursor.next?, ← htail]
          cases rest with
          | nil =>
            have hend := Cursor.startsOperand_eq_false hgrip
            rwa [Cursor.startsOperand_eq, Cursor.next?] at hend
          | cons u rest => exact hrest u rfl
        · rfl
      · rfl
    · rfl

end Stencil
