import Stencil.Proofs.Expr.Written

/-!
# Where printed lexemes run into each other

**The law** (`Derives.spaced`): every lexeme of a printed expression is read as it was written unless
one of two things happens: a plus or minus stands in front of the same sign, or the name of a field or
method behind an integer. Both leave no blank where the expression had one. `Separate` says of a node
that it does neither, and the law says exactly that no lexeme runs into the next if and only if every
node is separate.

That lexemes can be read at all (`Derives.isReadable`) is shown first. A lexeme is known by the first
character behind it, and that is a blank, a bracket or the first character of an operand, which
continues no operator (`exists_of_startsWith`) but for the signs of the law.

Both go by induction on the derivation with one lemma for each node, `IsReadable.binary` and
`Spaced.binary` and so on: a statement about the parts of a node gives the statement about the node.
What stands behind an expression is free in both, but for a point behind an integer: so `Spaced`
states of an expression how it clashes with the text behind it, too.

**What it does not establish.** That the lexemes, once read, are the expression again is
Proofs/Expr/Spelled.
-/

namespace Stencil

open Token (IsName wordLexeme)
open Written (Spells Readable Clash Clashes Ends Elides Fronted space separated texts)

namespace Expr

variable {ts us : List Token} {e : Expr} {rest : List Char} {parts : List (List Token × Expr)}

/-! ## First characters -/

/-- The first character of an expression does not continue an operator before it, except that a sign
may. -/
theorem exists_of_startsWith {l : Lexeme} (h : startsWith l = true) (hvalid : l.Valid) :
    ∃ c cs, l.spelling = c :: cs ∧ c ≠ '=' ∧ c ≠ '>' ∧
      ((∀ s, l ≠ .sign s) → c ≠ '+' ∧ c ≠ '-') := by
  have hword {cs : List Char} (h : Text.isIdentifier cs = true) :
      ∃ c ds, cs = c :: ds ∧ c ≠ '=' ∧ c ≠ '>' ∧ ((∀ s, l ≠ .sign s) → c ≠ '+' ∧ c ≠ '-') := by
    obtain ⟨c, ds, heq, -, hc⟩ := Written.exists_of_isIdentifier h
    simp only [List.mem_cons, List.not_mem_nil, or_false, not_or] at hc
    exact ⟨c, ds, heq, hc.2.2.2.2.1, hc.2.2.2.1, fun _ => ⟨hc.1, hc.2.1⟩⟩
  cases l with
  | identifier name => exact hword hvalid.1
  | keyword word => exact hword word.isIdentifier_text
  | string | character =>
    exact ⟨_, _, String.toList_ofList, by decide, by decide, fun _ => by decide⟩
  | number s =>
    obtain ⟨-, c, cs, heq, hc⟩ := hvalid
    have hne {d : Char} (hd : d.isDigit = false ∧ d ≠ '.') : c ≠ d := by
      rintro rfl
      simp [hd.1, hd.2] at hc
    exact ⟨c, cs, heq, hne (by decide), hne (by decide), fun _ => ⟨hne (by decide), hne (by decide)⟩⟩
  | punctuation p =>
    obtain rfl : p = '(' := by simpa [startsWith] using h
    exact ⟨'(', [], rfl, by decide, by decide, fun _ => by decide⟩
  | sign s =>
    cases s with
    | plus | minus | bang | tilde | plusPlus | minusMinus =>
      exact ⟨_, _, rfl, by decide, by decide, fun hne => absurd rfl (hne _)⟩
    | _ => cases h

/-- A printed expression starts with the first token of the expression. -/
theorem Derives.front (h : Derives ts e) (hvalid : ∀ t ∈ ts, t.lexeme.Valid) :
    ∃ t us vs, ts = t :: us ∧ e.written = ⟨false, t.lexeme⟩ :: vs ∧ startsWith t.lexeme = true := by
  obtain ⟨l, vs, hwritten⟩ := e.fronted_written
  obtain ⟨n, helides, -⟩ := h.printed hvalid
  obtain ⟨t, us, rfl, ht⟩ := h.first
  have hhead := helides.head?_eq fun heq => by
    rw [show t.lexeme = _ from Option.some.inj heq] at ht
    cases ht
  rw [hwritten] at hhead
  obtain rfl : l = t.lexeme := Option.some.inj hhead
  exact ⟨t, us, vs, rfl, hwritten, ht⟩

/-! ## Reading single lexemes -/

/-- A sign in front of a blank. -/
theorem readable_sign {s : Sign} {spaced : Bool} (hs : ' ' ∉ s.continuations) (rest : List Char) :
    Readable [⟨spaced, .sign s⟩] (' ' :: rest) := by
  refine ⟨trivial, .inl ?_, trivial⟩
  rintro c ⟨⟩
  exact hs

/-- A `>` in front of a sign that starts with one: the reader takes it by itself. -/
theorem readable_greater {s : Sign} {spaced : Bool} {ws : List Written}
    (hs : s.text.toList.head? = some '>') (h : Readable (⟨false, .sign s⟩ :: ws) rest) :
    Readable (⟨spaced, .sign .greater⟩ :: ⟨false, .sign s⟩ :: ws) rest := by
  refine ⟨trivial, .inl fun c hc => ?_, h⟩
  have hfirst : (s.text.toList ++ (texts ws ++ rest)).head? = some '>' := by
    rw [List.head?_append, hs]
    rfl
  obtain rfl : '>' = c := by
    rw [Written.texts_cons, List.append_assoc] at hc
    exact Option.some.inj (hfirst.symm.trans hc)
  show '>' ∉ Sign.continuations .greater
  decide

/-- The signs of an operator in front of a blank. -/
theorem readable_binarySigns (op : BinaryOp) (rest : List Char) :
    Readable (signsWritten op.signs) (' ' :: rest) := by
  cases op with
  | rightShift => exact readable_greater rfl (readable_sign (by decide) rest)
  | unsignedRightShift =>
    exact readable_greater rfl (readable_greater rfl (readable_sign (by decide) rest))
  | _ => exact readable_sign (by decide) rest

/-- The signs of an assignment operator in front of a blank. -/
theorem readable_assignSigns (op : AssignOp) (rest : List Char) :
    Readable (signsWritten op.signs) (' ' :: rest) := by
  cases op with
  | rightShift => exact readable_greater rfl (readable_sign (by decide) rest)
  | unsignedRightShift =>
    exact readable_greater rfl (readable_greater rfl (readable_sign (by decide) rest))
  | _ => exact readable_sign (by decide) rest

/-- Arguments in their parentheses are readable if each of them is. -/
theorem readable_argsWritten {args : List Expr}
    (h : ∀ e ∈ args, ∀ rest, Ends rest → Readable e.written rest) (rest : List Char) :
    Readable (argsWritten (writtenList args)) rest := by
  rw [argsWritten, writtenList_eq]
  refine .punctuation rfl (by decide) (Written.readable_append.2 ⟨?_, ?_⟩)
  · exact Written.readable_separated (fun e _ => e.fronted_written) h
      (Written.ends_of_mem (by decide) _)
  · exact .punctuation rfl (by decide) trivial

/-- A number in front of what ends a word; a point behind an integer is a clash. -/
theorem readable_number {s : String} (hvalid : (Lexeme.number s).Valid) (hrest : Ends rest) :
    Readable [⟨false, .number s⟩] rest := by
  refine ⟨hvalid, ?_, trivial⟩
  by_cases hclash : Clashes (.number s) rest
  · exact .inr hclash
  · refine .inl fun c hc => ⟨(hrest c hc).1, fun hdot => Bool.eq_false_iff.2 fun hwhole => ?_⟩
    exact hclash (.inr (.inr ⟨s, rfl, hwhole, hdot ▸ hc⟩))

/-- An operator in front of what does not continue it; the same sign behind it is a clash. -/
theorem readable_before {op : UnaryOp} {ws : List Written} (hop : op.isBehind = false)
    (hfirst : ∀ c, (texts ws ++ rest).head? = some c → c ≠ '=' ∧ c ≠ '>') (h : Readable ws rest) :
    Readable (⟨false, .sign op.sign⟩ :: ws) rest := by
  refine ⟨trivial, ?_, h⟩
  by_cases hclash : Clashes (.sign op.sign) (texts ws ++ rest)
  · exact .inr hclash
  · refine .inl fun c hc hmem => ?_
    obtain ⟨hassign, hlambda⟩ := hfirst c hc
    cases op with
    | plus =>
      simp only [UnaryOp.sign, Sign.continuations, List.mem_cons, List.not_mem_nil, or_false] at hmem
      rcases hmem with rfl | rfl
      · exact hclash (.inl ⟨rfl, hc⟩)
      · exact hassign rfl
    | minus =>
      simp only [UnaryOp.sign, Sign.continuations, List.mem_cons, List.not_mem_nil, or_false] at hmem
      rcases hmem with rfl | rfl | rfl
      · exact hclash (.inr (.inl ⟨rfl, hc⟩))
      · exact hlambda rfl
      · exact hassign rfl
    | not =>
      obtain rfl := List.mem_singleton.1 hmem
      exact hassign rfl
    | postIncrement | postDecrement => cases hop
    | _ => cases hmem

/-- A blank in front of an expression. -/
theorem texts_space_append (e : Expr) (rest : List Char) :
    texts (space e.written) ++ rest = ' ' :: (texts e.written ++ rest) := by
  rw [texts_space_written]
  rfl

/-- Arguments end the name of a call. -/
theorem ends_argsWritten (args : List (List Written)) (rest : List Char) :
    Ends (texts (argsWritten args) ++ rest) := Written.ends_of_mem (by decide) _

/-! ## Reading all lexemes -/

/-- Every lexeme of the printed expression can be read, if what stands behind does not go on with the
last one. -/
def IsReadable (e : Expr) : Prop := ∀ rest, Ends rest → Readable e.written rest

namespace IsReadable

variable {span : Span} {scope operand : Expr} {args : List Expr} {type : TypeRef} {n : String}

/-- A reserved word. -/
theorem keyword {word : Keyword} (hwritten : e.written = [⟨false, .keyword word⟩]) :
    e.IsReadable := by
  intro rest hrest
  rw [hwritten]
  exact .keyword hrest trivial

/-- A field: the point and the name. -/
theorem field (h : scope.IsReadable) (hname : IsName n) : (Expr.field span scope n).IsReadable := by
  intro rest hrest
  rw [written]
  refine Written.readable_append.2 ⟨h _ (Written.ends_of_mem (by decide) _), ?_⟩
  exact .field hname hrest trivial

/-- A call: the name and the arguments. -/
theorem call (hname : IsName n) (hargs : ∀ e ∈ args, e.IsReadable) :
    (Expr.call span n args).IsReadable := by
  intro rest _
  rw [written]
  exact .identifier hname (ends_argsWritten _ _) (readable_argsWritten hargs rest)

/-- A method: the point, the name and the arguments. -/
theorem method (h : scope.IsReadable) (hname : IsName n) (hargs : ∀ e ∈ args, e.IsReadable) :
    (Expr.method span scope n args).IsReadable := by
  intro rest _
  rw [written]
  refine Written.readable_append.2 ⟨h _ (Written.ends_of_mem (by decide) _), ?_⟩
  exact .field hname (ends_argsWritten _ _) (readable_argsWritten hargs rest)

/-- A position in its brackets. -/
theorem index {array position : Expr} (h : array.IsReadable) (h' : position.IsReadable) :
    (Expr.index span array position).IsReadable := by
  intro rest _
  rw [written]
  refine Written.readable_append.2 ⟨h _ (Written.ends_of_mem (by decide) _), ?_⟩
  refine .punctuation rfl (by decide) (Written.readable_append.2 ⟨h' _ ?_, ?_⟩)
  · exact Written.ends_of_mem (by decide) _
  · exact .punctuation rfl (by decide) trivial

/-- A creation: the word, the type and the arguments. -/
theorem creation (htype : ∀ rest, Ends rest → Readable type.written rest)
    (hargs : ∀ e ∈ args, e.IsReadable) : (Expr.creation span type args).IsReadable := by
  intro rest _
  rw [written]
  refine .keyword ?_ (Written.readable_append.2 ⟨Written.readable_space.2 ?_, ?_⟩)
  · rw [Written.texts_append, List.append_assoc]
    exact type.fronted_written.ends_space _
  · exact htype _ (ends_argsWritten _ _)
  · exact readable_argsWritten hargs rest

/-- A class literal: the type, the point and the word. -/
theorem classLiteral (htype : ∀ rest, Ends rest → Readable type.written rest) :
    (Expr.classLiteral span type).IsReadable := by
  intro rest hrest
  rw [written]
  refine Written.readable_append.2 ⟨htype _ (Written.ends_of_mem (by decide) _), ?_⟩
  exact .dot (by decide +kernel) (.keyword hrest trivial)

/-- An expression in parentheses. -/
theorem enclosed {inner : Expr} (h : inner.IsReadable) : (Expr.enclosed span inner).IsReadable := by
  intro rest _
  rw [written]
  refine .punctuation rfl (by decide) (Written.readable_append.2 ⟨h _ ?_, ?_⟩)
  · exact Written.ends_of_mem (by decide) _
  · exact .punctuation rfl (by decide) trivial

/-- The operators behind an operand are two of the same sign, and neither goes on. -/
theorem behind {op : UnaryOp} (hop : op.isBehind = true) (h : operand.IsReadable) :
    (Expr.unary span op operand).IsReadable := by
  intro rest _
  rw [written, if_pos hop]
  refine Written.readable_append.2 ⟨h _ ?_, trivial, .inl fun _ _ => ?_, trivial⟩
  · cases op with
    | postIncrement | postDecrement => exact Written.ends_of_mem (by decide) _
    | _ => cases hop
  · cases op with
    | postIncrement | postDecrement => exact List.not_mem_nil
    | _ => cases hop

/-- An operator in front of its operand. -/
theorem before {op : UnaryOp} (hop : op.isBehind = false) (h : operand.IsReadable)
    (hfirst : ∀ rest c, (texts operand.written ++ rest).head? = some c → c ≠ '=' ∧ c ≠ '>') :
    (Expr.unary span op operand).IsReadable := by
  intro rest hrest
  rw [written, if_neg (by simp [hop])]
  exact readable_before hop (hfirst rest) (h rest hrest)

/-- A cast: the type in parentheses and the operand. -/
theorem cast (htype : ∀ rest, Ends rest → Readable type.written rest) (h : operand.IsReadable) :
    (Expr.cast span type operand).IsReadable := by
  intro rest hrest
  rw [written]
  refine .punctuation rfl (by decide) (Written.readable_append.2 ⟨htype _ ?_, ?_⟩)
  · exact Written.ends_of_mem (by decide) _
  · exact .punctuation rfl (by decide) (Written.readable_space.2 (h rest hrest))

/-- A type test: the operand, the word and the type. -/
theorem instanceOf (h : operand.IsReadable)
    (htype : ∀ rest, Ends rest → Readable type.written rest) :
    (Expr.instanceOf span operand type).IsReadable := by
  intro rest hrest
  rw [written]
  refine Written.readable_append.2 ⟨h _ (Written.ends_of_mem (by decide) _), ?_⟩
  exact .keyword (type.fronted_written.ends_space _) (Written.readable_space.2 (htype rest hrest))

/-- An operator between blanks. -/
theorem binary {op : BinaryOp} {left right : Expr} (h : left.IsReadable) (h' : right.IsReadable) :
    (Expr.binary span op left right).IsReadable := by
  intro rest hrest
  rw [written]
  refine Written.readable_append.2
    ⟨h _ ?_, Written.readable_append.2 ⟨?_, Written.readable_space.2 (h' rest hrest)⟩⟩
  · rw [Written.texts_append, texts_signsWritten]
    exact Written.ends_of_mem (by decide) _
  · rw [texts_space_append]
    exact readable_binarySigns op _

/-- A conditional, with blanks around its signs. -/
theorem conditional {condition whenTrue whenFalse : Expr} (h : condition.IsReadable)
    (h' : whenTrue.IsReadable) (h'' : whenFalse.IsReadable) :
    (Expr.conditional span condition whenTrue whenFalse).IsReadable := by
  intro rest hrest
  rw [written]
  refine Written.readable_append.2 ⟨h _ (Written.ends_of_mem (by decide) _), trivial,
    .inl fun _ _ => List.not_mem_nil, Written.readable_append.2 ⟨Written.readable_space.2 ?_, ?_⟩⟩
  · exact h' _ (Written.ends_of_mem (by decide) _)
  · exact .punctuation rfl (by decide) (Written.readable_space.2 (h'' rest hrest))

/-- An assignment operator between blanks. -/
theorem assign {op : AssignOp} {target value : Expr} (h : target.IsReadable)
    (h' : value.IsReadable) : (Expr.assign span op target value).IsReadable := by
  intro rest hrest
  rw [written]
  refine Written.readable_append.2
    ⟨h _ ?_, Written.readable_append.2 ⟨?_, Written.readable_space.2 (h' rest hrest)⟩⟩
  · rw [Written.texts_append, texts_assignSigns]
    exact Written.ends_of_mem (by decide) _
  · rw [texts_space_append]
    exact readable_assignSigns op _

end IsReadable

/-- The arguments of a call are readable if each of them is. -/
theorem AreArguments.isReadable (hargs : AreArguments us parts) (hvalid : ∀ t ∈ us, t.lexeme.Valid)
    (ih : ∀ p ∈ parts, (∀ t ∈ p.1, t.lexeme.Valid) → p.2.IsReadable) :
    ∀ e ∈ parts.map (·.2), e.IsReadable :=
  List.forall_mem_map.2 fun p hp => ih p hp fun t ht => hvalid t (hargs.subset hp ht)

/-- A printed expression starts with a character that continues no operator. -/
theorem Derives.head?_texts (h : Derives ts e) (hvalid : ∀ t ∈ ts, t.lexeme.Valid)
    (rest : List Char) (c : Char) (hc : (texts e.written ++ rest).head? = some c) :
    c ≠ '=' ∧ c ≠ '>' := by
  obtain ⟨t, us, vs, rfl, hwritten, hstarts⟩ := h.front hvalid
  obtain ⟨d, cs, hspelling, hassign, hlambda, -⟩ := exists_of_startsWith hstarts (hvalid t (by simp))
  rw [hwritten, Written.texts_cons, Written.text, hspelling] at hc
  obtain rfl := Option.some.inj hc
  exact ⟨hassign, hlambda⟩

/-- Every lexeme of a printed expression can be read. -/
theorem Derives.isReadable (h : Derives ts e) (hvalid : ∀ t ∈ ts, t.lexeme.Valid) :
    e.IsReadable := by
  -- validity of the tokens is what makes names and numbers readable; the rest is fixed text
  induction h with
  | number s span =>
    intro rest hrest
    rw [written, literalLexeme_ofNumber]
    exact readable_number (hvalid ⟨.number s, span⟩ (by simp)) hrest
  | string | character => exact fun _ _ => ⟨trivial, .inl fun _ _ => trivial, trivial⟩
  | boolean | null => exact .keyword (by rw [written, literalLexeme, wordLexeme_text])
  | this => exact .keyword rfl
  | name n span =>
    exact fun rest hrest => .identifier (hvalid ⟨.identifier n, span⟩ (by simp)) hrest trivial
  | @field ts _ scope n s₁ s₂ hvs _ _ ih =>
    subst hvs
    exact .field (ih fun t ht => hvalid t (by simp [ht])) (hvalid ⟨.identifier n, s₂⟩ (by simp))
  | @call us _ n s parts hvs hargs _ ih =>
    subst hvs
    exact .call (hvalid ⟨.identifier n, s⟩ (by simp))
      (hargs.isReadable (fun t ht => hvalid t (by simp [ht])) ih)
  | @method ts us _ scope n s₁ s₂ parts hvs _ _ hargs _ ih ih' =>
    subst hvs
    exact .method (ih fun t ht => hvalid t (by simp [ht])) (hvalid ⟨.identifier n, s₂⟩ (by simp))
      (hargs.isReadable (fun t ht => hvalid t (by simp [ht])) ih')
  | index hvs _ _ _ ih ih' =>
    subst hvs
    exact .index (ih fun t ht => hvalid t (by simp [ht])) (ih' fun t ht => hvalid t (by simp [ht]))
  | creation hvs htype hargs _ ih =>
    subst hvs
    exact .creation (fun _ => htype.derives.readable fun t ht => hvalid t (by simp [ht]))
      (hargs.isReadable (fun t ht => hvalid t (by simp [ht])) ih)
  | @classLiteral ts ds _ n full dims s s₁ s₂ hvs hname hdims =>
    subst hvs
    rw [← List.append_assoc, ← List.cons_append] at hvalid
    exact .classLiteral fun _ => (TypeRef.Derives.plain s hname hdims).readable
      fun t ht => hvalid t (List.mem_append_left _ ht)
  | @primitiveClass ds _ word n dims s s₁ s₂ hvs hword hdims =>
    subst hvs
    rw [← List.cons_append] at hvalid
    exact .classLiteral fun _ => (TypeRef.Derives.primitive s hword hdims).readable
      fun t ht => hvalid t (List.mem_append_left _ ht)
  | enclosed hvs _ _ ih =>
    subst hvs
    exact .enclosed (ih fun t ht => hvalid t (by simp [ht]))
  | behind hvs hop _ _ ih =>
    subst hvs
    exact .behind hop (ih fun t ht => hvalid t (by simp [ht]))
  | before hvs hop h _ ih =>
    subst hvs
    have hvalid := fun t ht => hvalid t (List.mem_cons_of_mem _ ht)
    exact .before hop (ih hvalid) (h.head?_texts hvalid)
  | cast hvs htype _ _ _ ih =>
    subst hvs
    exact .cast (fun _ => htype.readable fun t ht => hvalid t (by simp [ht]))
      (ih fun t ht => hvalid t (by simp [ht]))
  | instanceOf hvs _ _ htype ih =>
    subst hvs
    exact .instanceOf (ih fun t ht => hvalid t (by simp [ht]))
      fun _ => htype.readable fun t ht => hvalid t (by simp [ht])
  | binary hvs _ _ _ _ _ _ ih ih' =>
    subst hvs
    exact .binary (ih fun t ht => hvalid t (by simp [ht])) (ih' fun t ht => hvalid t (by simp [ht]))
  | conditional hvs _ _ _ _ _ ih ih' ih'' =>
    subst hvs
    exact .conditional (ih fun t ht => hvalid t (by simp [ht]))
      (ih' fun t ht => hvalid t (by simp [ht])) (ih'' fun t ht => hvalid t (by simp [ht]))
  | assign hvs _ _ _ _ ih ih' =>
    subst hvs
    exact .assign (ih fun t ht => hvalid t (by simp [ht])) (ih' fun t ht => hvalid t (by simp [ht]))

/-! ## Lexemes that run into each other -/

/-- Whether the expression has a plus or minus in front of an operand that starts with the same
sign. -/
def doublesSign : Expr → Bool
  | unary _ .plus (unary _ op _) => op == .plus || op == .preIncrement
  | unary _ .minus (unary _ op _) => op == .minus || op == .preDecrement
  | _ => false

/-- Whether the expression is an integer without a letter. -/
def isWholeNumber : Expr → Bool
  | literal _ .int value => NumberLiteral.isWhole value.toList
  | _ => false

/-- A number literal is an integer if its spelling is one. -/
theorem isWholeNumber_ofNumber {span : Span} {s : String} :
    (literal span (.ofNumber s) s).isWholeNumber = NumberLiteral.isWhole s.toList := by
  cases h : NumberLiteral.isWhole s.toList with
  | true =>
    rw [LiteralKind.ofNumber_of_isWhole h]
    exact h
  | false => rcases ofNumber_cases s with hs | hs | hs | hs <;> simp [hs, isWholeNumber, h]

/-- Whether the expression has an integer in front of the name of a field or method. -/
def pointsAtNumber : Expr → Bool
  | field _ scope _ | method _ scope _ _ => scope.isWholeNumber
  | _ => false

/-- The lexemes of the node itself do not run into each other. -/
def Separate (e : Expr) : Prop := e.doublesSign = false ∧ e.pointsAtNumber = false

instance (e : Expr) : Decidable e.Separate := inferInstanceAs (Decidable (_ ∧ _))

/-- Lexemes do not clash if those in front do not, in front of the others, and the others do not. -/
theorem not_clash_append {ws vs : List Written} :
    ¬ Clash (ws ++ vs) rest ↔ ¬ Clash ws (texts vs ++ rest) ∧ ¬ Clash vs rest := by
  rw [Written.clash_append, not_or]

/-- Lexemes do not clash if the first does not with the others, and the others do not. -/
theorem not_clash_cons {w : Written} {ws : List Written} :
    ¬ Clash (w :: ws) rest ↔ ¬ Clashes w.lexeme (texts ws ++ rest) ∧ ¬ Clash ws rest := by
  rw [Clash, not_or]

/-- The signs of an operator do not clash in front of a blank. -/
theorem not_clash_binarySigns (op : BinaryOp) (rest : List Char) :
    ¬ Clash (signsWritten op.signs) (' ' :: rest) := by
  cases op <;>
    simp [BinaryOp.signs, signsWritten, space, Clash, Clashes, Written.text]

/-- The signs of an assignment operator do not clash in front of a blank. -/
theorem not_clash_assignSigns (op : AssignOp) (rest : List Char) :
    ¬ Clash (signsWritten op.signs) (' ' :: rest) := by
  cases op <;>
    simp [AssignOp.signs, signsWritten, space, Clash, Clashes, Written.text]

/-- An operand with nothing in front of it doubles no sign. -/
theorem doublesSign_eq_false {op : UnaryOp} {span : Span} (hop : op.isBehind = false)
    (hlevel : 14 ≤ e.level) : (unary span op e).doublesSign = false := by
  cases e with
  | unary _ op' d =>
    rw [level] at hlevel
    cases op' with
    | postIncrement | postDecrement => cases op <;> rfl
    | _ => exact absurd hlevel (by decide)
  | _ => cases op <;> rfl

/-- An operator runs into its operand where both have the same sign. -/
theorem Derives.clashes_iff {op : UnaryOp} (h : Derives ts e) (hvalid : ∀ t ∈ ts, t.lexeme.Valid)
    (hlevel : 13 ≤ e.level) (hop : op.isBehind = false) (span : Span) :
    Clashes (.sign op.sign) (texts e.written ++ rest) ↔ (unary span op e).doublesSign = true := by
  by_cases hpostfixed : 14 ≤ e.level
  · obtain ⟨t, us, vs, rfl, hwritten, hstarts⟩ := h.front hvalid
    obtain ⟨c, cs, hspelling, -, -, hsign⟩ := exists_of_startsWith hstarts (hvalid t (by simp))
    have hc := hsign (h.first_of_level hpostfixed t rfl)
    rw [doublesSign_eq_false hop hpostfixed, hwritten, Written.texts_cons, Written.text, hspelling]
    simp [Clashes, hc.1, hc.2]
  · cases e with
    | cast =>
      rw [written]
      cases op <;> simp [Clashes, doublesSign, Written.text, Lexeme.spelling]
    | unary _ op' d =>
      -- both operators are signs before an operand
      have hop' : op'.isBehind = false := by
        rw [level] at hpostfixed
        cases op' with
        | postIncrement | postDecrement => exact absurd (by decide) hpostfixed
        | _ => rfl
      rw [written, if_neg (by simp [hop'])]
      cases op <;> cases op' <;>
        simp_all [Clashes, doublesSign, Written.text, Lexeme.spelling, UnaryOp.sign, Sign.text,
          UnaryOp.isBehind]
    | binary _ op' =>
      rw [level] at hlevel
      cases op' <;> exact absurd hlevel (by decide)
    | _ =>
      simp only [level] at hlevel hpostfixed
      omega

/-- Which lexemes of the printed expression run into each other. Behind most expressions stands no
point. -/
def Spaced (e : Expr) : Prop :=
  ∀ rest : List Char, (e.level < 15 → rest.head? ≠ some '.') →
    (¬ Clash e.written rest ↔
      e.All Separate ∧ ¬ (e.isWholeNumber = true ∧ rest.head? = some '.'))

/-- An expression of one lexeme. -/
theorem spaced_of_written {l : Lexeme} (hwritten : e.written = [⟨false, l⟩]) (hnode : e.Separate)
    (hchildren : e.children = [])
    (hclash : ∀ rest, Clashes l rest ↔ e.isWholeNumber = true ∧ rest.head? = some '.') :
    e.Spaced := by
  intro rest _
  rw [hwritten, not_clash_cons, all_iff, hchildren, Written.texts_nil, List.nil_append, hclash]
  simp [hnode, Clash]

/-- An expression that is no integer clashes only within its lexemes. -/
theorem spaced_of_node (hwhole : e.isWholeNumber = false)
    (h : ∀ rest : List Char, (e.level < 15 → rest.head? ≠ some '.') →
      (¬ Clash e.written rest ↔ e.Separate ∧ ∀ d ∈ e.children, d.All Separate)) : e.Spaced := by
  intro rest hrest
  rw [h rest hrest, all_iff]
  simp [hwhole]

/-- A part that no point follows. -/
theorem Spaced.part (h : e.Spaced) (hrest : rest.head? ≠ some '.') :
    ¬ Clash e.written rest ↔ e.All Separate := by
  rw [h rest fun _ => hrest]
  simp [hrest]

/-- A part in front of a point. -/
theorem Spaced.scope (h : e.Spaced) (hlevel : 15 ≤ e.level) (rest : List Char) :
    ¬ Clash e.written rest ↔
      e.All Separate ∧ ¬ (e.isWholeNumber = true ∧ rest.head? = some '.') :=
  h rest fun hlt => absurd hlevel (Nat.not_le.2 hlt)

/-- Arguments in their parentheses clash if one of them does. -/
theorem not_clash_argsWritten {args : List Expr} (h : ∀ e ∈ args, e.Spaced) (rest : List Char) :
    ¬ Clash (argsWritten (writtenList args)) rest ↔ ∀ e ∈ args, e.All Separate := by
  have hpart : ∀ e ∈ args, ∀ rest : List Char, rest.head? ≠ some '.' →
      (Clash e.written rest ↔ ¬ e.All Separate) := by
    intro e he rest hrest
    rw [← (h e he).part hrest, Classical.not_not]
  rw [argsWritten, writtenList_eq, not_clash_cons, not_clash_append,
    Written.clash_separated hpart (by simp [Written.text, Lexeme.spelling])]
  simp [Clash, Clashes]

namespace Spaced

variable {span : Span} {scope operand : Expr} {args : List Expr} {type : TypeRef} {n : String}

/-- A point behind an integer is the second of the two ways to clash. -/
theorem field (h : scope.Spaced) (hlevel : 15 ≤ scope.level) :
    (Expr.field span scope n).Spaced := by
  refine spaced_of_node rfl fun rest _ => ?_
  rw [written, not_clash_append, h.scope hlevel]
  simp [Separate, doublesSign, pointsAtNumber, children, Clashes, Clash, Written.text,
    Lexeme.spelling, and_comm]

/-- In a call only the arguments can clash. -/
theorem call (hargs : ∀ e ∈ args, e.Spaced) : (Expr.call span n args).Spaced := by
  refine spaced_of_node rfl fun rest _ => ?_
  rw [written, not_clash_cons, not_clash_argsWritten hargs]
  simp [Separate, doublesSign, pointsAtNumber, children, Clashes]

/-- A point behind an integer, or a clash in the scope or in an argument. -/
theorem method (h : scope.Spaced) (hlevel : 15 ≤ scope.level) (hargs : ∀ e ∈ args, e.Spaced) :
    (Expr.method span scope n args).Spaced := by
  refine spaced_of_node rfl fun rest _ => ?_
  rw [written, not_clash_append, h.scope hlevel, not_clash_cons, not_clash_cons,
    not_clash_argsWritten hargs]
  simp [Separate, doublesSign, pointsAtNumber, children, Clashes, Written.text, Lexeme.spelling,
    and_assoc, and_left_comm]

/-- In a position, the array or the position can clash. -/
theorem index {array position : Expr} (h : array.Spaced) (h' : position.Spaced) :
    (Expr.index span array position).Spaced := by
  refine spaced_of_node rfl fun rest _ => ?_
  rw [written, not_clash_append, h.part (by simp [Written.text, Lexeme.spelling]), not_clash_cons,
    not_clash_append, h'.part (by simp [Written.text, Lexeme.spelling])]
  simp [Separate, doublesSign, pointsAtNumber, children, Clashes, Clash]

/-- In a creation only the arguments can clash. -/
theorem creation (hargs : ∀ e ∈ args, e.Spaced) : (Expr.creation span type args).Spaced := by
  refine spaced_of_node rfl fun rest _ => ?_
  rw [written, not_clash_cons, not_clash_append, Written.clash_space, not_clash_argsWritten hargs]
  simp [Separate, doublesSign, pointsAtNumber, children, Clashes, TypeRef.not_clash_written]

/-- A class literal does not clash. -/
theorem classLiteral : (Expr.classLiteral span type).Spaced := by
  refine spaced_of_node rfl fun rest _ => ?_
  rw [written, not_clash_append]
  simp [Separate, doublesSign, pointsAtNumber, children, Clashes, Clash, TypeRef.not_clash_written]

/-- In parentheses only the inner expression can clash. -/
theorem enclosed {inner : Expr} (h : inner.Spaced) : (Expr.enclosed span inner).Spaced := by
  refine spaced_of_node rfl fun rest _ => ?_
  rw [written, not_clash_cons, not_clash_append,
    h.part (by simp [Written.text, Lexeme.spelling])]
  simp [Separate, doublesSign, pointsAtNumber, children, Clashes, Clash]

/-- An operator behind its operand has a sign that no sign follows. -/
theorem behind {op : UnaryOp} (hop : op.isBehind = true) (h : operand.Spaced) :
    (Expr.unary span op operand).Spaced := by
  refine spaced_of_node rfl fun rest _ => ?_
  have hdot : (texts [⟨false, .sign op.sign⟩] ++ rest).head? ≠ some '.' := by
    cases op with
    | postIncrement | postDecrement => simp [Written.text, Lexeme.spelling, UnaryOp.sign, Sign.text]
    | _ => cases hop
  rw [written, if_pos hop, not_clash_append, h.part hdot]
  cases op with
  | postIncrement | postDecrement =>
    simp [Separate, doublesSign, pointsAtNumber, children, Clashes, Clash, UnaryOp.sign]
  | _ => cases hop

/-- An operator in front runs into its operand if and only if the node doubles its sign. -/
theorem before {op : UnaryOp} (hop : op.isBehind = false) (h : operand.Spaced)
    (hclash : ∀ rest, Clashes (.sign op.sign) (texts operand.written ++ rest) ↔
      (unary span op operand).doublesSign = true) : (Expr.unary span op operand).Spaced := by
  refine spaced_of_node rfl fun rest hrest => ?_
  have hdot : rest.head? ≠ some '.' := hrest (by rw [level, hop]; decide)
  rw [written, if_neg (by simp [hop]), not_clash_cons, h.part hdot, hclash]
  simp [Separate, pointsAtNumber, children]

/-- In a cast only the operand can clash. -/
theorem cast (h : operand.Spaced) : (Expr.cast span type operand).Spaced := by
  refine spaced_of_node rfl fun rest hrest => ?_
  have hdot : rest.head? ≠ some '.' := hrest (by simp [level])
  rw [written, not_clash_cons, not_clash_append, not_clash_cons, Written.clash_space, h.part hdot]
  simp [Separate, doublesSign, pointsAtNumber, children, Clashes, TypeRef.not_clash_written]

/-- In a type test only the operand can clash. -/
theorem instanceOf (h : operand.Spaced) : (Expr.instanceOf span operand type).Spaced := by
  refine spaced_of_node rfl fun rest _ => ?_
  rw [written, not_clash_append, not_clash_cons, Written.clash_space,
    h.part (by simp [Written.text])]
  simp [Separate, doublesSign, pointsAtNumber, children, Clashes, TypeRef.not_clash_written]

/-- Blanks keep an operator apart from its operands. -/
theorem binary {op : BinaryOp} {left right : Expr} (h : left.Spaced) (h' : right.Spaced) :
    (Expr.binary span op left right).Spaced := by
  refine spaced_of_node rfl fun rest hrest => ?_
  have hdot : rest.head? ≠ some '.' := hrest (by rw [level]; cases op <;> decide)
  rw [written, not_clash_append, h.part (by rw [Written.texts_append, texts_signsWritten]; simp),
    not_clash_append, texts_space_append, Written.clash_space, h'.part hdot]
  simp [Separate, doublesSign, pointsAtNumber, children, not_clash_binarySigns]

/-- Blanks keep the signs of a conditional apart. -/
theorem conditional {condition whenTrue whenFalse : Expr} (h : condition.Spaced)
    (h' : whenTrue.Spaced) (h'' : whenFalse.Spaced) :
    (Expr.conditional span condition whenTrue whenFalse).Spaced := by
  refine spaced_of_node rfl fun rest hrest => ?_
  have hdot : rest.head? ≠ some '.' := hrest (by simp [level])
  rw [written, not_clash_append, not_clash_cons, not_clash_append, not_clash_cons,
    Written.clash_space, Written.clash_space, h.part (by simp [Written.text]),
    h'.part (by simp [Written.text]), h''.part hdot]
  simp [Separate, doublesSign, pointsAtNumber, children, Clashes]

/-- Blanks keep an assignment operator apart. -/
theorem assign {op : AssignOp} {target value : Expr} (h : target.Spaced) (h' : value.Spaced) :
    (Expr.assign span op target value).Spaced := by
  refine spaced_of_node rfl fun rest hrest => ?_
  have hdot : rest.head? ≠ some '.' := hrest (by simp [level])
  rw [written, not_clash_append, h.part (by rw [Written.texts_append, texts_assignSigns]; simp),
    not_clash_append, texts_space_append, Written.clash_space, h'.part hdot]
  simp [Separate, doublesSign, pointsAtNumber, children, not_clash_assignSigns]

end Spaced

/-- The arguments of a call are spaced if each of them is. -/
theorem AreArguments.spaced (h : AreArguments us parts) (hvalid : ∀ t ∈ us, t.lexeme.Valid)
    (ih : ∀ p ∈ parts, (∀ t ∈ p.1, t.lexeme.Valid) → p.2.Spaced) :
    ∀ e ∈ parts.map (·.2), e.Spaced :=
  List.forall_mem_map.2 fun p hp => ih p hp fun t ht => hvalid t (h.subset hp ht)

/-- No lexeme of a printed expression runs into the next if and only if every node keeps its own lexemes
separate. -/
theorem Derives.spaced (h : Derives ts e) (hvalid : ∀ t ∈ ts, t.lexeme.Valid) : e.Spaced := by
  induction h with
  | number s span =>
    refine spaced_of_written (by rw [written, literalLexeme_ofNumber]) ⟨rfl, rfl⟩ rfl fun rest => ?_
    rw [isWholeNumber_ofNumber]
    simp [Clashes]
  | string | character | name | this =>
    exact spaced_of_written rfl ⟨rfl, rfl⟩ rfl (by simp [Clashes, isWholeNumber, literalLexeme])
  | boolean | null =>
    refine spaced_of_written (by rw [written, literalLexeme, wordLexeme_text]) ⟨rfl, rfl⟩ rfl
      fun rest => ?_
    simp [Clashes, isWholeNumber]
  | field hvs _ hlevel ih =>
    subst hvs
    exact .field (ih fun t ht => hvalid t (by simp [ht])) hlevel
  | call hvs hargs _ ih =>
    subst hvs
    exact .call (hargs.spaced (fun t ht => hvalid t (by simp [ht])) ih)
  | method hvs _ hlevel hargs _ ih ih' =>
    subst hvs
    exact .method (ih fun t ht => hvalid t (by simp [ht])) hlevel
      (hargs.spaced (fun t ht => hvalid t (by simp [ht])) ih')
  | index hvs _ _ _ ih ih' =>
    subst hvs
    exact .index (ih fun t ht => hvalid t (by simp [ht])) (ih' fun t ht => hvalid t (by simp [ht]))
  | creation hvs _ hargs _ ih =>
    subst hvs
    exact .creation (hargs.spaced (fun t ht => hvalid t (by simp [ht])) ih)
  | classLiteral | primitiveClass => exact .classLiteral
  | enclosed hvs _ _ ih =>
    subst hvs
    exact .enclosed (ih fun t ht => hvalid t (by simp [ht]))
  | behind hvs hop _ _ ih =>
    subst hvs
    exact .behind hop (ih fun t ht => hvalid t (by simp [ht]))
  | before hvs hop h hlevel ih =>
    subst hvs
    have hvalid := fun t ht => hvalid t (List.mem_cons_of_mem _ ht)
    exact .before hop (ih hvalid) fun rest => h.clashes_iff hvalid hlevel hop _
  | cast hvs _ _ _ _ ih =>
    subst hvs
    exact .cast (ih fun t ht => hvalid t (by simp [ht]))
  | instanceOf hvs _ _ _ ih =>
    subst hvs
    exact .instanceOf (ih fun t ht => hvalid t (by simp [ht]))
  | binary hvs _ _ _ _ _ _ ih ih' =>
    subst hvs
    exact .binary (ih fun t ht => hvalid t (by simp [ht])) (ih' fun t ht => hvalid t (by simp [ht]))
  | conditional hvs _ _ _ _ _ ih ih' ih'' =>
    subst hvs
    exact .conditional (ih fun t ht => hvalid t (by simp [ht]))
      (ih' fun t ht => hvalid t (by simp [ht])) (ih'' fun t ht => hvalid t (by simp [ht]))
  | assign hvs _ _ _ _ ih ih' =>
    subst hvs
    exact .assign (ih fun t ht => hvalid t (by simp [ht])) (ih' fun t ht => hvalid t (by simp [ht]))

end Expr

end Stencil
