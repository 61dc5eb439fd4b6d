import Stencil.Proofs.Expr.Spacing

/-!
# Tokens that spell a printed expression

Blanks and spans do not matter to the grammar, and the only tokens that are not printed are empty
angle brackets.

**The result** (`Derives.respells`): tokens that spell a printed expression are that expression, up to
spans, unless a type test that lost its brackets stands before a `<`. There the reader of types would
go on with the `<` as with type arguments.

`Respells` states it of an expression, and there is one lemma for each node, which puts the tokens of
its parts together again: `Respells.field`, `Respells.call` and so on. What the grammar asks of a node
beside its parts is asked of each lemma: the level of a part, the first token of an operand behind a
cast, the first token between parentheses. Those depend on what is spelled only, and not on the spans
(`Derives.first_of_spells`). A comparison is the one node where the brackets matter
(`Respells.binary`): the type test that it compares keeps them, as it would be a bare one otherwise
(`Derives.isBareTest`).

**What it does not establish.** That the printed text is read as tokens that spell it is
Proofs/Expr/Spacing.
-/

namespace Stencil

open Written (Spells Elides Fronted space separated)

/-! ## Operators and arguments -/

/-- Signs that were written without blanks between them touch. -/
theorem Token.areSigns_of_spells {ss : List Sign} {os : List Token}
    (h : Spells (ss.map fun s => ⟨false, .sign s⟩) os) : AreSigns ss os := by
  induction ss generalizing os with
  | nil => exact areSigns_nil.2 h.eq_nil
  | cons s ss ih =>
    cases os with
    | nil => cases h
    | cons t os =>
      obtain ⟨hl, htouches, hspells⟩ := h
      refine ⟨hl, fun u hu => ?_, ih hspells⟩
      cases ss with
      | nil =>
        rw [hspells.eq_nil] at hu
        cases hu
      | cons s' ss => exact htouches _ u rfl hu rfl

namespace Expr

variable {ts us : List Token} {d e : Expr}

/-- The signs of an operator touch. -/
theorem areSigns_of_spells {ss : List Sign} {os : List Token} (h : Spells (signsWritten ss) os) :
    Token.AreSigns ss os := Token.areSigns_of_spells (Written.spells_space.1 h)

/-! ## Trees without spans -/

/-- Expressions that differ in spans only have the same level. -/
theorem level_eq (h : d.eraseSpans = e.eraseSpans) : d.level = e.level := by
  rw [← level_eraseSpans d, h, level_eraseSpans]

/-- Whether an expression can be assigned to does not depend on spans. -/
theorem isTarget_eraseSpans (e : Expr) : Grammar.isTarget e.eraseSpans = Grammar.isTarget e := by
  cases e <;> rfl

/-- Whether an expression is a bare type test does not depend on spans. -/
theorem isBareTest_eraseSpans (e : Expr) : e.eraseSpans.isBareTest = e.isBareTest := by
  cases e <;> rfl

/-- A type test whose tokens end in a name is a bare one. -/
theorem Derives.isBareTest (h : Derives ts e) (hvalid : ∀ t ∈ ts, t.lexeme.Valid)
    (htest : e.isTypeTest = true) (hends : EndsInName ts) : e.isBareTest = true := by
  cases h with
  | @instanceOf ts us _ type operand s hvs _ _ htype =>
    subst hvs
    obtain ⟨u, us, rfl, -⟩ := htype.first
    rw [endsInName_append_cons, show (⟨.keyword .instanceOf, s⟩ :: u :: us : List Token) =
      [⟨.keyword .instanceOf, s⟩] ++ u :: us from rfl, endsInName_append_cons] at hends
    exact htype.endsInName (fun t ht => hvalid t (by simp at ht ⊢; simp [ht])) hends
  | _ => cases htest

/-! ## What the tokens have in common -/

/-- Tokens that spell a printed expression start with the lexeme that the expression was read from. -/
theorem Derives.first_of_spells (h : Derives ts e) (hvalid : ∀ t ∈ ts, t.lexeme.Valid)
    (hspells : Spells e.written us) {u : Token} (hu : us.head? = some u) :
    ∃ t, ts.head? = some t ∧ u.lexeme = t.lexeme := by
  obtain ⟨t, ts, vs, rfl, hwritten, -⟩ := h.front hvalid
  rw [hwritten] at hspells
  obtain ⟨span, us, rfl, -⟩ := hspells.uncons
  obtain rfl := Option.some.inj hu
  exact ⟨t, rfl, rfl⟩

/-- Tokens that spell a printed expression are valid, as those of the expression are. -/
theorem Derives.valid_of_spells (h : Derives ts e) (hvalid : ∀ t ∈ ts, t.lexeme.Valid)
    (hspells : Spells e.written us) : ∀ u ∈ us, u.lexeme.Valid := by
  obtain ⟨n, helides, -⟩ := h.printed hvalid
  intro u hu
  have hmem : u.lexeme ∈ e.written.map (·.lexeme) := hspells.lexemes ▸ List.mem_map_of_mem hu
  obtain ⟨t, ht, hsame⟩ := List.mem_map.1 (helides.sublist.subset hmem)
  exact hsame ▸ hvalid t ht

/-! ## One node more

For each way to write a node: if tokens that spell a part are the part again, then tokens that spell the
node are the node again. -/

/-- Tokens that spell the printed expression are the expression again, up to spans. -/
def Respells (e : Expr) : Prop :=
  ∀ us, Spells e.written us → ∃ d, Derives us d ∧ d.eraseSpans = e.eraseSpans

/-- Parts that are expressions again, up to spans, and the expressions that they are. -/
theorem exists_parts (parts : List (List Token × Expr))
    (h : ∀ p ∈ parts, ∃ d, Derives p.1 d ∧ d.eraseSpans = p.2.eraseSpans) :
    ∃ parts' : List (List Token × Expr), parts'.map (·.1) = parts.map (·.1) ∧
      (∀ p ∈ parts', Derives p.1 p.2) ∧
      eraseSpansList (parts'.map (·.2)) = eraseSpansList (parts.map (·.2)) := by
  induction parts with
  | nil => exact ⟨[], rfl, by simp, rfl⟩
  | cons p parts ih =>
    obtain ⟨parts', htokens, hderives, herase⟩ := ih fun q hq => h q (List.mem_cons_of_mem _ hq)
    obtain ⟨d, hd, heq⟩ := h p (by simp)
    refine ⟨(p.1, d) :: parts', by simp [htokens], List.forall_mem_cons.2 ⟨hd, hderives⟩, ?_⟩
    simp [eraseSpansList, heq, herase]

/-- Tokens that spell arguments in their parentheses are arguments again. -/
theorem arguments_of_spells {args : List Expr} (h : Spells (argsWritten (writtenList args)) us)
    (hargs : ∀ e ∈ args, e.Respells) :
    ∃ parts, AreArguments us parts ∧ (∀ p ∈ parts, Derives p.1 p.2) ∧
      eraseSpansList (parts.map (·.2)) = eraseSpansList args := by
  rw [argsWritten, writtenList_eq] at h
  obtain ⟨s₁, ws, rfl, htail⟩ := h.uncons
  obtain ⟨vs, s₂, rfl, hinner⟩ := htail.unsnoc
  obtain ⟨parts, hjoined, rfl, hspells⟩ := hinner.joined
  obtain ⟨parts', htokens, hderives, herase⟩ := exists_parts parts fun p hp =>
    hargs p.2 (List.mem_map_of_mem hp) p.1 (hspells p hp)
  exact ⟨parts', ⟨vs, s₁, s₂, htokens ▸ hjoined, rfl⟩, hderives, herase⟩

namespace Respells

variable {span : Span} {scope operand : Expr} {args : List Expr} {type : TypeRef} {n : String}

/-- An expression of one lexeme. -/
theorem leaf {l : Lexeme} (hwritten : e.written = [⟨false, l⟩])
    (h : ∀ span, ∃ d, Derives [⟨l, span⟩] d ∧ d.eraseSpans = e.eraseSpans) : e.Respells := by
  intro us hspells
  rw [hwritten] at hspells
  obtain ⟨span, us, rfl, hnil⟩ := hspells.uncons
  obtain rfl := hnil.eq_nil
  exact h span

/-- A field of a chain. -/
theorem field (h : scope.Respells) (hlevel : 15 ≤ scope.level) :
    (Expr.field span scope n).Respells := by
  intro us hspells
  rw [written] at hspells
  obtain ⟨vs, us, rfl, hscope, htail⟩ := hspells.split
  obtain ⟨s₁, us, rfl, htail₁⟩ := htail.uncons
  obtain ⟨s₂, us, rfl, hnil⟩ := htail₁.uncons
  obtain rfl := hnil.eq_nil
  obtain ⟨d, hd, heq⟩ := h vs hscope
  exact ⟨_, .field rfl hd (level_eq heq ▸ hlevel), by simp [eraseSpans, heq]⟩

/-- A call without a scope. -/
theorem call (hargs : ∀ e ∈ args, e.Respells) : (Expr.call span n args).Respells := by
  intro us hspells
  rw [written] at hspells
  obtain ⟨s, us, rfl, hlist⟩ := hspells.uncons
  obtain ⟨parts, harguments, hderives, heq⟩ := arguments_of_spells hlist hargs
  exact ⟨_, .call rfl harguments hderives, by simp [eraseSpans, heq]⟩

/-- A method of a chain. -/
theorem method (h : scope.Respells) (hlevel : 15 ≤ scope.level) (hargs : ∀ e ∈ args, e.Respells) :
    (Expr.method span scope n args).Respells := by
  intro us hspells
  rw [written] at hspells
  obtain ⟨vs, us, rfl, hscope, htail⟩ := hspells.split
  obtain ⟨s₁, us, rfl, htail₁⟩ := htail.uncons
  obtain ⟨s₂, us, rfl, hlist⟩ := htail₁.uncons
  obtain ⟨d, hd, heq⟩ := h vs hscope
  obtain ⟨parts, harguments, hderives, heq'⟩ := arguments_of_spells hlist hargs
  exact ⟨_, .method rfl hd (level_eq heq ▸ hlevel) harguments hderives,
    by simp [eraseSpans, heq, heq']⟩

/-- A position of a chain. -/
theorem index {array position : Expr} (h : array.Respells) (hlevel : 15 ≤ array.level)
    (h' : position.Respells) : (Expr.index span array position).Respells := by
  intro us hspells
  rw [written] at hspells
  obtain ⟨vs, us, rfl, harray, htail⟩ := hspells.split
  obtain ⟨s₁, us, rfl, htail₁⟩ := htail.uncons
  obtain ⟨us, s₂, rfl, hposition⟩ := htail₁.unsnoc
  obtain ⟨d, hd, heq⟩ := h vs harray
  obtain ⟨d', hd', heq'⟩ := h' us hposition
  exact ⟨_, .index rfl hd (level_eq heq ▸ hlevel) hd', by simp [eraseSpans, heq, heq']⟩

/-- A creation of a class. -/
theorem creation (htype : ∀ us, Spells type.written us → TypeRef.DerivesClass us type)
    (hargs : ∀ e ∈ args, e.Respells) : (Expr.creation span type args).Respells := by
  intro us hspells
  rw [written] at hspells
  obtain ⟨s, us, rfl, htail⟩ := hspells.uncons
  obtain ⟨vs, us, rfl, hclass, hlist⟩ := htail.split
  obtain ⟨parts, harguments, hderives, heq⟩ := arguments_of_spells hlist hargs
  exact ⟨_, .creation rfl (htype vs (Written.spells_space.1 hclass)) harguments hderives,
    by simp [eraseSpans, heq]⟩

/-- The name of a class literal is spelled in front, and its dimensions behind. -/
theorem classLiteral {full : String} {dims : Nat}
    (hname : ∀ us, Spells (TypeRef.nameWritten full) us →
      ∃ s ts, us = ⟨.identifier n, s⟩ :: ts ∧ TypeRef.Dotted n ts full) :
    (Expr.classLiteral span (.named full [] dims)).Respells := by
  intro us hspells
  rw [written, TypeRef.written] at hspells
  obtain ⟨vs, us, rfl, htype, htail⟩ := hspells.split
  obtain ⟨ns, ds, rfl, hns, hds⟩ := htype.split
  obtain ⟨s, ns, rfl, hdotted⟩ := hname ns hns
  obtain ⟨s₁, us, rfl, htail₁⟩ := htail.uncons
  obtain ⟨s₂, us, rfl, hnil⟩ := htail₁.uncons
  obtain rfl := hnil.eq_nil
  exact ⟨_, .classLiteral (List.append_assoc _ _ _) hdotted (.of_spells hds), rfl⟩

/-- The class literal of a reserved word. -/
theorem primitiveClass {word : Keyword} {dims : Nat} (hword : word.typeName? = some n) :
    (Expr.classLiteral span (.named n [] dims)).Respells := by
  intro us hspells
  rw [written, TypeRef.written, TypeRef.nameWritten_of_typeName? hword] at hspells
  obtain ⟨vs, us, rfl, htype, htail⟩ := hspells.split
  obtain ⟨s, ds, rfl, hds⟩ := htype.uncons
  obtain ⟨s₁, us, rfl, htail₁⟩ := htail.uncons
  obtain ⟨s₂, us, rfl, hnil⟩ := htail₁.uncons
  obtain rfl := hnil.eq_nil
  exact ⟨_, .primitiveClass rfl hword (.of_spells hds), rfl⟩

/-- An expression in parentheses, which starts with no word for a type. -/
theorem enclosed {inner : Expr} (h : inner.Respells)
    (hword : ∀ us u, Spells inner.written us → us.head? = some u → u.lexeme.isTypeWord = false) :
    (Expr.enclosed span inner).Respells := by
  intro us hspells
  rw [written] at hspells
  obtain ⟨s₁, us, rfl, htail⟩ := hspells.uncons
  obtain ⟨us, s₂, rfl, hinner⟩ := htail.unsnoc
  obtain ⟨d, hd, heq⟩ := h us hinner
  exact ⟨_, .enclosed rfl hd fun u hu => hword us u hinner hu, by simp [eraseSpans, heq]⟩

/-- An operator behind its operand. -/
theorem behind {op : UnaryOp} (hop : op.isBehind = true) (h : operand.Respells)
    (hlevel : 14 ≤ operand.level) : (Expr.unary span op operand).Respells := by
  intro us hspells
  rw [written, if_pos hop] at hspells
  obtain ⟨us, s, rfl, hoperand⟩ := hspells.unsnoc
  obtain ⟨d, hd, heq⟩ := h us hoperand
  exact ⟨_, .behind rfl hop hd (level_eq heq ▸ hlevel), by simp [eraseSpans, heq]⟩

/-- An operator in front of its operand. -/
theorem before {op : UnaryOp} (hop : op.isBehind = false) (h : operand.Respells)
    (hlevel : 13 ≤ operand.level) : (Expr.unary span op operand).Respells := by
  intro us hspells
  rw [written, if_neg (by simp [hop])] at hspells
  obtain ⟨s, us, rfl, hoperand⟩ := hspells.uncons
  obtain ⟨d, hd, heq⟩ := h us hoperand
  exact ⟨_, .before rfl hop hd (level_eq heq ▸ hlevel), by simp [eraseSpans, heq]⟩

/-- A cast, which is written with a word for a type or before what starts an operand. -/
theorem cast (htype : ∀ us, Spells type.written us → TypeRef.Derives us type) (h : operand.Respells)
    (hlevel : 13 ≤ operand.level)
    (hstart : ∀ us vs u v, Spells type.written us → Spells operand.written vs →
      us.head? = some u → vs.head? = some v →
        u.lexeme.isTypeWord = true ∨ v.lexeme.startsOperand = true) :
    (Expr.cast span type operand).Respells := by
  intro us hspells
  rw [written] at hspells
  obtain ⟨s₁, us, rfl, htail⟩ := hspells.uncons
  obtain ⟨us, vs, rfl, hus, htail₁⟩ := htail.split
  obtain ⟨s₂, vs, rfl, hspaced⟩ := htail₁.uncons
  have hvs := Written.spells_space.1 hspaced
  obtain ⟨d, hd, heq⟩ := h vs hvs
  exact ⟨_, .cast rfl (htype us hus) hd (level_eq heq ▸ hlevel)
    (fun u v hu hv => hstart us vs u v hus hvs hu hv), by simp [eraseSpans, heq]⟩

/-- A type test. -/
theorem instanceOf (h : operand.Respells) (hlevel : 9 ≤ operand.level)
    (htype : ∀ us, Spells type.written us → TypeRef.Derives us type) :
    (Expr.instanceOf span operand type).Respells := by
  intro us hspells
  rw [written] at hspells
  obtain ⟨vs, us, rfl, hoperand, htail⟩ := hspells.split
  obtain ⟨s, us, rfl, hus⟩ := htail.uncons
  obtain ⟨d, hd, heq⟩ := h vs hoperand
  exact ⟨_, .instanceOf rfl hd (level_eq heq ▸ hlevel) (htype us (Written.spells_space.1 hus)),
    by simp [eraseSpans, heq]⟩

/-- A comparison is one again, since the type test that it compares keeps its brackets: it would have to
be a bare one to lose them. -/
theorem binary {op : BinaryOp} {left right : Expr} (h : left.Respells) (h' : right.Respells)
    (hleft : op.level ≤ left.level) (hright : op.level < right.level)
    (hvalid : ∀ us, Spells left.written us → ∀ u ∈ us, u.lexeme.Valid)
    (hnode : (Expr.binary span op left right).comparesBareTest = false) :
    (Expr.binary span op left right).Respells := by
  intro us hspells
  rw [written] at hspells
  obtain ⟨vs, us, rfl, hfirst, htail⟩ := hspells.split
  obtain ⟨os, us, rfl, hos, hr⟩ := htail.split
  obtain ⟨d, hd, heq⟩ := h vs hfirst
  obtain ⟨d', hd', heq'⟩ := h' us (Written.spells_space.1 hr)
  refine ⟨_, .binary rfl (areSigns_of_spells hos) hd hd' (level_eq heq ▸ hleft)
    (level_eq heq' ▸ hright) fun hless htest hends => ?_, by simp [eraseSpans, heq, heq']⟩
  have hbare := hd.isBareTest (hvalid vs hfirst) htest hends
  subst hless
  rw [comparesBareTest, ← isBareTest_eraseSpans, ← heq, isBareTest_eraseSpans, hbare] at hnode
  cases hnode

/-- A conditional. -/
theorem conditional {condition whenTrue whenFalse : Expr} (h : condition.Respells)
    (h' : whenTrue.Respells) (h'' : whenFalse.Respells) (hcondition : 3 ≤ condition.level)
    (hfalse : 2 ≤ whenFalse.level) :
    (Expr.conditional span condition whenTrue whenFalse).Respells := by
  intro us hspells
  rw [written] at hspells
  obtain ⟨vs, us, rfl, hc, htail⟩ := hspells.split
  obtain ⟨s₁, us, rfl, htail₁⟩ := htail.uncons
  obtain ⟨us, ws, rfl, ht, htail₂⟩ := htail₁.split
  obtain ⟨s₂, ws, rfl, hf⟩ := htail₂.uncons
  obtain ⟨d, hd, heq⟩ := h vs hc
  obtain ⟨d', hd', heq'⟩ := h' us (Written.spells_space.1 ht)
  obtain ⟨d'', hd'', heq''⟩ := h'' ws (Written.spells_space.1 hf)
  exact ⟨_, .conditional rfl hd hd' hd'' (level_eq heq ▸ hcondition) (level_eq heq'' ▸ hfalse),
    by simp [eraseSpans, heq, heq', heq'']⟩

/-- An assignment. -/
theorem assign {op : AssignOp} {target value : Expr} (h : target.Respells) (h' : value.Respells)
    (htarget : Grammar.isTarget target = true) : (Expr.assign span op target value).Respells := by
  intro us hspells
  rw [written] at hspells
  obtain ⟨vs, us, rfl, ht, htail⟩ := hspells.split
  obtain ⟨os, us, rfl, hos, hv⟩ := htail.split
  obtain ⟨d, hd, heq⟩ := h vs ht
  obtain ⟨d', hd', heq'⟩ := h' us (Written.spells_space.1 hv)
  refine ⟨_, .assign rfl (areSigns_of_spells hos) hd hd' ?_, by simp [eraseSpans, heq, heq']⟩
  rw [← isTarget_eraseSpans, heq, isTarget_eraseSpans]
  exact htarget

end Respells

/-! ## The expression of the tokens -/

/-- The arguments of a call are spelled again if each of them is. -/
theorem AreArguments.respells {parts : List (List Token × Expr)} (h : AreArguments us parts)
    (hvalid : ∀ t ∈ us, t.lexeme.Valid)
    (hall : ∀ d ∈ parts.map (·.2), d.All fun d => d.comparesBareTest = false)
    (ih : ∀ p ∈ parts, (∀ t ∈ p.1, t.lexeme.Valid) →
      (p.2.All fun d => d.comparesBareTest = false) → p.2.Respells) :
    ∀ e ∈ parts.map (·.2), e.Respells := by
  refine List.forall_mem_map.2 fun p hp => ih p hp (fun t ht => hvalid t (h.subset hp ht)) ?_
  exact hall p.2 (List.mem_map_of_mem hp)

/-- Tokens that spell a printed expression are the expression again, unless it compares a bare type
test. -/
theorem Derives.respells (h : Derives ts e) (hvalid : ∀ t ∈ ts, t.lexeme.Valid)
    (hall : e.All fun d => d.comparesBareTest = false) : e.Respells := by
  -- one case for each way to write a node; both conditions go over to the parts
  induction h with
  | number s =>
    exact .leaf (by rw [written, literalLexeme_ofNumber]) fun span => ⟨_, .number s span, rfl⟩
  | string v => exact .leaf rfl fun span => ⟨_, .string v span, rfl⟩
  | character v =>
    exact .leaf (by simp [written, literalLexeme]) fun span => ⟨_, .character v span, rfl⟩
  | boolean _ h =>
    exact .leaf (by rw [written, literalLexeme, wordLexeme_text]) fun span => ⟨_, .boolean span h, rfl⟩
  | null =>
    exact .leaf (by rw [written, literalLexeme, wordLexeme_text]) fun span => ⟨_, .null span, rfl⟩
  | name n => exact .leaf rfl fun span => ⟨_, .name n span, rfl⟩
  | this => exact .leaf rfl fun span => ⟨_, .this span, rfl⟩
  | field hvs _ hlevel ih =>
    subst hvs
    exact .field (ih (fun t ht => hvalid t (by simp [ht])) (hall.parts _ (by simp [children]))) hlevel
  | call hvs hargs _ ih =>
    subst hvs
    exact .call (hargs.respells (fun t ht => hvalid t (by simp [ht])) hall.parts ih)
  | method hvs _ hlevel hargs _ ih ih' =>
    subst hvs
    exact .method (ih (fun t ht => hvalid t (by simp [ht])) (hall.parts _ (by simp [children]))) hlevel
      (hargs.respells (fun t ht => hvalid t (by simp [ht]))
        (fun d hd => hall.parts d (List.mem_cons_of_mem _ hd)) ih')
  | index hvs _ hlevel _ ih ih' =>
    subst hvs
    exact .index (ih (fun t ht => hvalid t (by simp [ht])) (hall.parts _ (by simp [children]))) hlevel
      (ih' (fun t ht => hvalid t (by simp [ht])) (hall.parts _ (by simp [children])))
  | creation hvs htype hargs _ ih =>
    subst hvs
    exact .creation (fun _ => htype.of_spells fun t ht => hvalid t (by simp [ht]))
      (hargs.respells (fun t ht => hvalid t (by simp [ht])) hall.parts ih)
  | @classLiteral ts ds _ n full dims s s₁ s₂ hvs hname hdims =>
    subst hvs
    have hfull := hname.nameWritten_full s (hvalid ⟨.identifier n, s⟩ (by simp))
      fun t ht => hvalid t (by simp [ht])
    exact .classLiteral fun _ => hname.of_spells hfull
  | primitiveClass _ hword => exact .primitiveClass hword
  | enclosed hvs h hword ih =>
    subst hvs
    have hvalid := fun t ht => hvalid t (List.mem_cons_of_mem _ (List.mem_append_left _ ht))
    refine .enclosed (ih hvalid (hall.parts _ (by simp [children]))) fun us u hus hu => ?_
    obtain ⟨t, ht, hsame⟩ := h.first_of_spells hvalid hus hu
    exact hsame ▸ hword t ht
  | behind hvs hop _ hlevel ih =>
    subst hvs
    exact .behind hop
      (ih (fun t ht => hvalid t (by simp [ht])) (hall.parts _ (by simp [children]))) hlevel
  | before hvs hop _ hlevel ih =>
    subst hvs
    exact .before hop
      (ih (fun t ht => hvalid t (by simp [ht])) (hall.parts _ (by simp [children]))) hlevel
  | cast hvs htype h hlevel hstart ih =>
    subst hvs
    refine .cast (fun _ => htype.of_spells fun t ht => hvalid t (by simp [ht]))
      (ih (fun t ht => hvalid t (by simp [ht])) (hall.parts _ (by simp [children]))) hlevel
      fun us vs u v hus hvs hu hv => ?_
    -- the first tokens are spelled as they were
    obtain ⟨t, ht, hsame⟩ := htype.first_of_spells (fun t ht => hvalid t (by simp [ht])) hus hu
    obtain ⟨r, hr, hsame'⟩ := h.first_of_spells (fun t ht => hvalid t (by simp [ht])) hvs hv
    rw [hsame, hsame']
    exact hstart t r ht hr
  | instanceOf hvs _ hlevel htype ih =>
    subst hvs
    exact .instanceOf
      (ih (fun t ht => hvalid t (by simp [ht])) (hall.parts _ (by simp [children]))) hlevel
      fun _ => htype.of_spells fun t ht => hvalid t (by simp [ht])
  | binary hvs _ hl _ hleft hright _ ih ih' =>
    subst hvs
    exact .binary
      (ih (fun t ht => hvalid t (by simp [ht])) (hall.parts _ (by simp [children])))
      (ih' (fun t ht => hvalid t (by simp [ht])) (hall.parts _ (by simp [children]))) hleft hright
      (fun _ => hl.valid_of_spells fun t ht => hvalid t (by simp [ht])) hall.node
  | conditional hvs _ _ _ hcondition hfalse ih ih' ih'' =>
    subst hvs
    exact .conditional
      (ih (fun t ht => hvalid t (by simp [ht])) (hall.parts _ (by simp [children])))
      (ih' (fun t ht => hvalid t (by simp [ht])) (hall.parts _ (by simp [children])))
      (ih'' (fun t ht => hvalid t (by simp [ht])) (hall.parts _ (by simp [children]))) hcondition hfalse
  | assign hvs _ _ _ htarget ih ih' =>
    subst hvs
    exact .assign
      (ih (fun t ht => hvalid t (by simp [ht])) (hall.parts _ (by simp [children])))
      (ih' (fun t ht => hvalid t (by simp [ht])) (hall.parts _ (by simp [children]))) htarget

end Expr

end Stencil
