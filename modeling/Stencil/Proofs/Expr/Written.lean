import Stencil.Proofs.Expr.Completeness
import Stencil.Proofs.TypeRef.Written

/-!
# Printed expressions

The lexemes that an expression is printed as (`written`), with a blank in front where the printer
leaves one. `Derives.texts_written` says that the printer prints just these.

The other half is about the tokens that an expression was read from. They are what it is printed as,
except for empty angle brackets (`Derives.printed`): a type that was written with them is printed
without. Where no brackets were left out, something more is known: no bare type test stands before a
`<` (`TestsEnd`), as the reader of types would have taken the `<`. Both are stated together, as
`Printed`, because the second is only of use where the first loses nothing.

`Derives.printed` goes by induction on the derivation with one lemma for each node: `Printed.field`,
`Printed.call` and so on, each about the tokens of the node put together of those of its parts. Two of
them have an argument of their own, the type test and the comparison.

**What it does not establish.** That the text is read as these lexemes again is Proofs/Expr/Spacing;
here lexemes are only listed.
-/

namespace Stencil

open Token (IsName wordLexeme)
open Written (Sheds Fronted space separated texts)

/-- An integer without point, exponent and letter is of the kind of integers. -/
theorem LiteralKind.ofNumber_of_isWhole {s : String} (h : NumberLiteral.isWhole s.toList = true) :
    LiteralKind.ofNumber s = .int := by
  have hdigits : ∀ c ∈ s.toList, c.isDigit = true ∨ c = '_' := by
    simpa [NumberLiteral.isWhole] using h
  have hlower : s.toList.map Char.toLower = s.toList := by
    refine (List.map_congr_left fun c hc => ?_).trans (List.map_id _)
    rcases hdigits c hc with hdigit | rfl
    · simp only [Char.isDigit, Bool.and_eq_true, decide_eq_true_eq] at hdigit
      refine dif_neg fun hupper => ?_
      have hlow := UInt32.le_iff_toNat_le.1 hupper.1
      have hhigh := UInt32.le_iff_toNat_le.1 hdigit.2
      exact absurd (Nat.le_trans hlow hhigh) (by decide)
    · rfl
  have hnot {c : Char} (hc : c.isDigit = false) (hne : c ≠ '_') : c ∉ s.toList := fun hmem => by
    rcases hdigits c hmem with hdigit | heq
    · rw [hc] at hdigit
      cases hdigit
    · exact hne heq
  have hlast {c : Char} (hc : c.isDigit = false) (hne : c ≠ '_') : s.toList.getLast? ≠ some c :=
    fun hlast => hnot hc hne (List.mem_of_getLast? hlast)
  have hprefix : ['0', 'x'].isPrefixOf s.toList = false := by
    rw [Bool.eq_false_iff]
    intro hprefix
    obtain ⟨tail, htail⟩ := List.isPrefixOf_iff_prefix.1 hprefix
    exact hnot (c := 'x') (by decide) (by decide) (by rw [← htail]; simp)
  rw [ofNumber]
  simp only [hlower, hprefix]
  rw [if_neg (by simp), if_neg (hlast rfl (by decide)), if_neg (hlast rfl (by decide)), if_neg]
  simp only [Bool.or_eq_true, decide_eq_true_eq, List.contains_iff_mem, not_or]
  exact ⟨⟨hlast rfl (by decide), hnot rfl (by decide)⟩, hnot rfl (by decide)⟩

namespace Expr

/-! ## Lexemes -/

/-- The lexeme of a literal. -/
def literalLexeme (kind : LiteralKind) (value : String) : Lexeme :=
  match kind with
  | .string => .string value
  | .character => .character (value.toList.headD ' ')
  | .boolean | .null => wordLexeme value
  | .int | .long | .float | .double => .number value

/-- The signs of an operator with a blank before them. -/
def signsWritten (ss : List Sign) : List Written := space (ss.map fun s => ⟨false, .sign s⟩)

/-- The lexemes of arguments in their parentheses. -/
def argsWritten (args : List (List Written)) : List Written :=
  ⟨false, .punctuation '('⟩ :: (separated args ++ [⟨false, .punctuation ')'⟩])

mutual

/-- The lexemes that an expression is printed as. -/
def written : Expr → List Written
  | literal _ kind value => [⟨false, literalLexeme kind value⟩]
  | name _ n => [⟨false, .identifier n⟩]
  | this _ => [⟨false, .keyword .this⟩]
  | field _ scope n => scope.written ++ [⟨false, .punctuation '.'⟩, ⟨false, .identifier n⟩]
  | call _ n args => ⟨false, .identifier n⟩ :: argsWritten (writtenList args)
  | method _ scope n args =>
    scope.written ++
      ⟨false, .punctuation '.'⟩ :: ⟨false, .identifier n⟩ :: argsWritten (writtenList args)
  | index _ array position =>
    array.written ++ ⟨false, .punctuation '['⟩ :: (position.written ++ [⟨false, .punctuation ']'⟩])
  | creation _ type args =>
    ⟨false, .keyword .newObject⟩ :: (space type.written ++ argsWritten (writtenList args))
  | cast _ type operand =>
    ⟨false, .punctuation '('⟩ ::
      (type.written ++ ⟨false, .punctuation ')'⟩ :: space operand.written)
  | instanceOf _ operand type =>
    operand.written ++ ⟨true, .keyword .instanceOf⟩ :: space type.written
  | classLiteral _ type =>
    type.written ++ [⟨false, .punctuation '.'⟩, ⟨false, .keyword .classOf⟩]
  | unary _ op operand =>
    if op.isBehind then operand.written ++ [⟨false, .sign op.sign⟩]
    else ⟨false, .sign op.sign⟩ :: operand.written
  | binary _ op left right => left.written ++ (signsWritten op.signs ++ space right.written)
  | conditional _ condition whenTrue whenFalse =>
    condition.written ++ ⟨true, .sign .question⟩ ::
      (space whenTrue.written ++ ⟨true, .punctuation ':'⟩ :: space whenFalse.written)
  | assign _ op target value => target.written ++ (signsWritten op.signs ++ space value.written)
  | enclosed _ inner =>
    ⟨false, .punctuation '('⟩ :: (inner.written ++ [⟨false, .punctuation ')'⟩])

/-- The lexemes of each expression of a list. -/
def writtenList : List Expr → List (List Written)
  | [] => []
  | e :: es => e.written :: writtenList es

end

/-- The lexemes of several expressions. -/
theorem writtenList_eq (es : List Expr) : writtenList es = es.map written := by
  induction es with
  | nil => rfl
  | cons e es ih => rw [writtenList, ih, List.map_cons]

/-- An expression starts without a blank. -/
theorem fronted_written (e : Expr) : Fronted e.written := by
  induction e using inductParts with
  | h e ih =>
    have hpart {d : Expr} (hd : d ∈ e.children) (ws : List Written) : Fronted (d.written ++ ws) :=
      (ih d hd).append ws
    cases e with
    | classLiteral _ type =>
      rw [written]
      exact type.fronted_written.append _
    | unary _ op operand =>
      rw [written]
      split
      · exact hpart (by simp [children]) _
      · exact ⟨_, _, rfl⟩
    | field | method | index | instanceOf | binary | conditional | assign =>
      rw [written]
      exact hpart (by simp [children]) _
    | _ => exact ⟨_, _, rfl⟩

mutual

/-- Spans are not printed. -/
theorem written_eraseSpans : (e : Expr) → e.eraseSpans.written = e.written
  | literal .. | name .. | this _ | classLiteral .. => rfl
  | field _ scope _ => by rw [eraseSpans, written, written, written_eraseSpans scope]
  | call _ _ args => by rw [eraseSpans, written, written, writtenList_eraseSpansList args]
  | method _ scope _ args => by
    rw [eraseSpans, written, written, written_eraseSpans scope, writtenList_eraseSpansList args]
  | index _ array position => by
    rw [eraseSpans, written, written, written_eraseSpans array, written_eraseSpans position]
  | creation _ _ args => by rw [eraseSpans, written, written, writtenList_eraseSpansList args]
  | cast _ _ operand | instanceOf _ operand _ | unary _ _ operand | enclosed _ operand => by
    rw [eraseSpans, written, written, written_eraseSpans operand]
  | binary _ _ left right | assign _ _ left right => by
    rw [eraseSpans, written, written, written_eraseSpans left, written_eraseSpans right]
  | conditional _ condition whenTrue whenFalse => by
    rw [eraseSpans, written, written, written_eraseSpans condition, written_eraseSpans whenTrue,
      written_eraseSpans whenFalse]

/-- Spans of several expressions are not printed. -/
theorem writtenList_eraseSpansList : (es : List Expr) →
    writtenList (eraseSpansList es) = writtenList es
  | [] => rfl
  | e :: es => by
    rw [eraseSpansList, writtenList, writtenList, written_eraseSpans e,
      writtenList_eraseSpansList es]

end

/-! ## Texts -/

/-- The kinds that a number can be of. -/
theorem ofNumber_cases (s : String) : LiteralKind.ofNumber s = .int ∨ LiteralKind.ofNumber s = .long ∨
    LiteralKind.ofNumber s = .float ∨ LiteralKind.ofNumber s = .double := by
  unfold LiteralKind.ofNumber
  extract_lets text last
  repeat' split
  all_goals simp

theorem literalLexeme_ofNumber (s : String) : literalLexeme (.ofNumber s) s = .number s := by
  rcases ofNumber_cases s with h | h | h | h <;> rw [h] <;> rfl

/-- Several expressions are printed one by one. -/
theorem printList_eq (es : List Expr) : printList es = es.map print := by
  induction es with
  | nil => rw [printList, List.map_nil]
  | cons e es ih => rw [printList, ih, List.map_cons]

/-- Arguments are printed as their lexemes if each of them is. -/
theorem texts_argsWritten {args : List Expr}
    (h : ∀ e ∈ args, texts e.written = e.print.toList) :
    texts (argsWritten (writtenList args)) = (printArgs args).toList := by
  have hfront : ∀ ws ∈ args.map written, Fronted ws := by
    intro ws hws
    obtain ⟨e, -, rfl⟩ := List.mem_map.1 hws
    exact e.fronted_written
  have hprint : args.map ((fun ws => String.ofList (texts ws)) ∘ written) = args.map print :=
    List.map_congr_left fun e he => by rw [Function.comp, h e he, String.ofList_toList]
  rw [argsWritten, writtenList_eq, Written.texts_cons, Written.texts_append,
    Written.texts_separated hfront, List.map_map, hprint, printArgs, printList_eq]
  simp [Written.text, Lexeme.spelling]

/-- The signs of an operator are printed behind a blank. -/
theorem texts_signsWritten (op : BinaryOp) :
    texts (signsWritten op.signs) = ' ' :: op.text.toList := by
  cases op <;> rfl

/-- The signs of an assignment operator are printed behind a blank. -/
theorem texts_assignSigns (op : AssignOp) :
    texts (signsWritten op.signs) = ' ' :: op.text.toList := by
  cases op <;> rfl

theorem texts_space_written (e : Expr) : texts (space e.written) = ' ' :: texts e.written :=
  Written.texts_space e.fronted_written

/-- An expression is printed as its lexemes. -/
theorem Derives.texts_written {ts : List Token} {e : Expr} (h : Derives ts e) :
    texts e.written = e.print.toList := by
  have hargs {parts : List (List Token × Expr)}
      (ih : ∀ p ∈ parts, texts p.2.written = p.2.print.toList) :
      texts (argsWritten (writtenList (parts.map (·.2)))) = (printArgs (parts.map (·.2))).toList := by
    refine texts_argsWritten fun e he => ?_
    obtain ⟨p, hp, rfl⟩ := List.mem_map.1 he
    exact ih p hp
  induction h with
  | number s span =>
    rw [written, literalLexeme_ofNumber]
    rcases ofNumber_cases s with h | h | h | h <;>
      simp [h, print, Written.text, Lexeme.spelling]
  | string | character => simp [written, literalLexeme, print, Written.text, Lexeme.spelling]
  | boolean | null =>
    simp [written, literalLexeme, print, Written.text, TypeRef.spelling_wordLexeme]
  | name | this => simp [written, print, Written.text, Lexeme.spelling, Keyword.text]
  | field _ _ _ ih => simp [written, print, ih, Written.text, Lexeme.spelling]
  | call _ _ _ ih => simp [written, print, hargs ih, Written.text, Lexeme.spelling]
  | method _ _ _ _ _ ih ih' => simp [written, print, ih, hargs ih', Written.text, Lexeme.spelling]
  | index _ _ _ _ ih ih' => simp [written, print, ih, ih', Written.text, Lexeme.spelling]
  | creation _ _ _ _ ih =>
    simp [written, print, hargs ih, Written.texts_space (TypeRef.fronted_written _),
      TypeRef.texts_written, Written.text, Lexeme.spelling, Keyword.text]
  | classLiteral | primitiveClass =>
    simp [written, print, TypeRef.texts_written, Written.text, Lexeme.spelling, Keyword.text]
  | enclosed _ _ _ ih => simp [written, print, ih, Written.text, Lexeme.spelling]
  | behind _ hop _ _ ih => simp [written, print, hop, ih, Written.text, Lexeme.spelling]
  | before _ hop _ _ ih => simp [written, print, hop, ih, Written.text, Lexeme.spelling]
  | cast _ _ _ _ _ ih =>
    simp [written, print, ih, texts_space_written, TypeRef.texts_written, Written.text,
      Lexeme.spelling]
  | instanceOf _ _ _ _ ih =>
    simp [written, print, ih, Written.texts_space (TypeRef.fronted_written _),
      TypeRef.texts_written, Written.text, Lexeme.spelling, Keyword.text]
  | binary _ _ _ _ _ _ _ ih ih' =>
    simp [written, print, ih, ih', texts_signsWritten, texts_space_written]
  | conditional _ _ _ _ _ _ ih ih' ih'' =>
    simp [written, print, ih, ih', ih'', texts_space_written, Written.text, Lexeme.spelling,
      Sign.text]
  | assign _ _ _ _ _ ih ih' =>
    simp [written, print, ih, ih', texts_assignSigns, texts_space_written]

/-! ## Empty angle brackets -/

/-- Whether the expression is a type test that ends in a name. -/
def isBareTest : Expr → Bool
  | instanceOf _ _ type => type.endsInName
  | _ => false

/-- Whether the expression compares a type test that ends in a name. Behind empty angle brackets a `<`
is a comparison, but behind the name it opens type arguments. -/
def comparesBareTest : Expr → Bool
  | binary _ .less left _ => left.isBareTest
  | _ => false

/-- The tokens of an argument are among those of the arguments. -/
theorem AreArguments.subset {us : List Token} {parts : List (List Token × Expr)}
    (h : AreArguments us parts) {p : List Token × Expr} (hp : p ∈ parts) : p.1 ⊆ us := by
  obtain ⟨vs, s₁, s₂, hjoined, rfl⟩ := h
  intro t ht
  simp [hjoined.subset (List.mem_map_of_mem hp) ht]

/-- No bare type test is compared in the expression, and if it is one itself, its tokens end in the
name. -/
def TestsEnd (ts : List Token) (e : Expr) : Prop :=
  (e.All fun d => d.comparesBareTest = false) ∧ (e.isBareTest = true → EndsInName ts)

/-- The expression is printed as the tokens but for empty angle brackets, and without these its bare
type tests end where a name does. -/
def Printed (ts : List Token) (e : Expr) : Prop :=
  Sheds (e.TestsEnd ts) ts (e.written.map (·.lexeme))

/-- The signs of an operator are printed as its tokens. -/
theorem lexemes_signsWritten {ss : List Sign} {os : List Token} (h : Token.AreSigns ss os) :
    (signsWritten ss).map (·.lexeme) = os.map (·.lexeme) := by
  rw [signsWritten, Written.lexemes_space]
  induction ss generalizing os with
  | nil => rw [Token.areSigns_nil.1 h]; rfl
  | cons s ss ih =>
    obtain ⟨span, ts, rfl, -, h⟩ := Token.areSigns_cons.1 h
    rw [List.map_cons, List.map_cons, List.map_cons, ih h]

/-- A reserved word is printed as itself. -/
theorem wordLexeme_text (word : Keyword) : wordLexeme word.text = .keyword word := by
  rw [wordLexeme, word.ofText?_text]

variable {ts us : List Token} {e : Expr} {parts : List (List Token × Expr)} {q : Prop}
  {span s s₁ s₂ : Span}

/-- An expression that is no type test and compares none is as its parts are. -/
theorem TestsEnd.of_parts (hnode : e.comparesBareTest = false) (hbare : e.isBareTest = false)
    (hparts : ∀ d ∈ e.children, d.All fun d => d.comparesBareTest = false) : e.TestsEnd ts :=
  ⟨⟨hnode, hparts⟩, fun htest => absurd (hbare.symm.trans htest) Bool.false_ne_true⟩

/-- Arguments are printed as their tokens if each of them is. -/
theorem AreArguments.printed (h : AreArguments us parts)
    (hparts : ∀ p ∈ parts, Printed p.1 p.2) :
    Sheds (∀ d ∈ parts.map (·.2), d.All fun d => d.comparesBareTest = false) us
      ((argsWritten (writtenList (parts.map (·.2)))).map (·.lexeme)) := by
  obtain ⟨vs, s₁, s₂, hjoined, rfl⟩ := h
  have hall := (Sheds.joined hjoined hparts).behind [⟨.punctuation ')', s₂⟩]
  rw [argsWritten, writtenList_eq, List.map_cons, List.map_append]
  refine (hall.keep ⟨.punctuation '(', s₁⟩).imp fun hends => List.forall_mem_map.2 fun p hp => ?_
  exact (hends p hp).1

namespace Printed

/-! ### One node more

For each way to write a node: if its parts are printed as their tokens, so is the node. -/

/-- What one token is, as a whole. -/
theorem leaf {l : Lexeme} (span : Span) (hwritten : e.written = [⟨false, l⟩])
    (hnode : e.comparesBareTest = false) (hbare : e.isBareTest = false) (hchildren : e.children = []) :
    Printed [⟨l, span⟩] e := by
  rw [Printed, hwritten]
  exact .refl [⟨l, span⟩] (.of_parts hnode hbare (by simp [hchildren]))

/-- A point and the name of a field stay behind the scope. -/
theorem field {scope : Expr} {n : String} (h : Printed ts scope) :
    Printed (ts ++ [⟨.punctuation '.', s₁⟩, ⟨.identifier n, s₂⟩]) (.field span scope n) := by
  rw [Printed, written, List.map_append]
  exact (h.behind [⟨.punctuation '.', s₁⟩, ⟨.identifier n, s₂⟩]).imp fun hscope =>
    .of_parts rfl rfl (List.forall_mem_singleton.2 hscope.1)

/-- The name of a call stays in front of its arguments. -/
theorem call {n : String} (hargs : AreArguments us parts) (h : ∀ p ∈ parts, Printed p.1 p.2) :
    Printed (⟨.identifier n, s⟩ :: us) (.call span n (parts.map (·.2))) := by
  rw [Printed, written, List.map_cons]
  exact ((hargs.printed h).keep ⟨.identifier n, s⟩).imp fun hall => .of_parts rfl rfl hall

/-- A point and the name of a method stay between the scope and the arguments. -/
theorem method {scope : Expr} {n : String} (h : Printed ts scope) (hargs : AreArguments us parts)
    (hparts : ∀ p ∈ parts, Printed p.1 p.2) :
    Printed (ts ++ ⟨.punctuation '.', s₁⟩ :: ⟨.identifier n, s₂⟩ :: us)
      (.method span scope n (parts.map (·.2))) := by
  have hbehind := (hargs.printed hparts).front [⟨.punctuation '.', s₁⟩, ⟨.identifier n, s₂⟩]
  rw [Printed, written, List.map_append]
  exact (h.append hbehind).imp fun ⟨hscope, hall⟩ =>
    .of_parts rfl rfl (List.forall_mem_cons.2 ⟨hscope.1, hall⟩)

/-- The brackets of a position stay around it. -/
theorem index {array position : Expr} (h : Printed ts array) (h' : Printed us position) :
    Printed (ts ++ ⟨.punctuation '[', s₁⟩ :: (us ++ [⟨.punctuation ']', s₂⟩]))
      (.index span array position) := by
  have hbehind := (h'.behind [⟨.punctuation ']', s₂⟩]).keep ⟨.punctuation '[', s₁⟩
  rw [Printed, written, List.map_append, List.map_cons, List.map_append]
  exact (h.append hbehind).imp fun ⟨harray, hposition⟩ =>
    .of_parts rfl rfl (by simp [children, harray.1, hposition.1])

/-- The word of a creation stays; its type may lose brackets. -/
theorem creation {type : TypeRef} (htype : Sheds q ts (type.written.map (·.lexeme)))
    (hargs : AreArguments us parts) (hparts : ∀ p ∈ parts, Printed p.1 p.2) :
    Printed (⟨.keyword .newObject, s⟩ :: (ts ++ us)) (.creation span type (parts.map (·.2))) := by
  rw [Printed, written, List.map_cons, List.map_append, Written.lexemes_space]
  exact ((htype.append (hargs.printed hparts)).keep ⟨.keyword .newObject, s⟩).imp fun ⟨_, hall⟩ =>
    .of_parts rfl rfl hall

/-- The point and the word of a class literal stay behind its type. -/
theorem classLiteral {type : TypeRef} (htype : Sheds q ts (type.written.map (·.lexeme))) :
    Printed (ts ++ [⟨.punctuation '.', s₁⟩, ⟨.keyword .classOf, s₂⟩]) (.classLiteral span type) := by
  rw [Printed, written, List.map_append]
  exact (htype.behind [⟨.punctuation '.', s₁⟩, ⟨.keyword .classOf, s₂⟩]).imp fun _ =>
    .of_parts rfl rfl (List.forall_mem_nil _)

/-- Parentheses stay around the inner expression. -/
theorem enclosed {inner : Expr} (h : Printed ts inner) :
    Printed (⟨.punctuation '(', s₁⟩ :: (ts ++ [⟨.punctuation ')', s₂⟩])) (.enclosed span inner) := by
  rw [Printed, written, List.map_cons, List.map_append]
  exact ((h.behind [⟨.punctuation ')', s₂⟩]).keep ⟨.punctuation '(', s₁⟩).imp fun hinner =>
    .of_parts rfl rfl (List.forall_mem_singleton.2 hinner.1)

/-- An operator stays behind its operand. -/
theorem behind {op : UnaryOp} {operand : Expr} (hop : op.isBehind = true)
    (h : Printed ts operand) : Printed (ts ++ [⟨.sign op.sign, s⟩]) (.unary span op operand) := by
  rw [Printed, written, if_pos hop, List.map_append]
  exact (Sheds.behind h [⟨.sign op.sign, s⟩]).imp fun hoperand =>
    .of_parts rfl rfl (List.forall_mem_singleton.2 hoperand.1)

/-- An operator stays in front of its operand. -/
theorem before {op : UnaryOp} {operand : Expr} (hop : op.isBehind = false)
    (h : Printed ts operand) : Printed (⟨.sign op.sign, s⟩ :: ts) (.unary span op operand) := by
  rw [Printed, written, if_neg (by simp [hop]), List.map_cons]
  exact (h.keep ⟨.sign op.sign, s⟩).imp fun hoperand =>
    .of_parts rfl rfl (List.forall_mem_singleton.2 hoperand.1)

/-- The parentheses of a cast stay around its type, which may lose brackets. -/
theorem cast {type : TypeRef} {operand : Expr} (htype : Sheds q ts (type.written.map (·.lexeme)))
    (h : Printed us operand) :
    Printed (⟨.punctuation '(', s₁⟩ :: (ts ++ ⟨.punctuation ')', s₂⟩ :: us))
      (.cast span type operand) := by
  have hall := (htype.append (h.keep ⟨.punctuation ')', s₂⟩)).keep ⟨.punctuation '(', s₁⟩
  rw [Printed, written, List.map_cons, List.map_append, List.map_cons, Written.lexemes_space]
  exact hall.imp fun ⟨_, hoperand⟩ => .of_parts rfl rfl (List.forall_mem_singleton.2 hoperand.1)

/-- A type test is bare if the type is, and then the tokens of both end in the name. -/
theorem instanceOf {type : TypeRef} {operand : Expr} (h : Printed ts operand) (hne : us ≠ [])
    (htype : Sheds (type.endsInName = true → EndsInName us) us (type.written.map (·.lexeme))) :
    Printed (ts ++ ⟨.keyword .instanceOf, s⟩ :: us) (.instanceOf span operand type) := by
  rw [Printed, written, List.map_append, List.map_cons, Written.lexemes_space]
  refine (h.append (htype.keep ⟨.keyword .instanceOf, s⟩)).imp fun ⟨hoperand, hends⟩ => ?_
  refine ⟨⟨rfl, List.forall_mem_singleton.2 hoperand.1⟩, fun hbare => ?_⟩
  obtain ⟨u, us, rfl⟩ := List.exists_cons_of_ne_nil hne
  rw [endsInName_append_cons]
  exact (@endsInName_append_cons [_] us u).2 (hends hbare)

/-- A comparison does not compare a bare type test, as that would go on with type arguments. -/
theorem binary {os rs : List Token} {op : BinaryOp} {left right : Expr}
    (hop : Token.AreSigns op.signs os) (h : Printed ts left) (h' : Printed rs right)
    (hless : op = .less → left.isTypeTest = true → ¬ EndsInName ts) :
    Printed (ts ++ (os ++ rs)) (.binary span op left right) := by
  rw [Printed, written, List.map_append, List.map_append, Written.lexemes_space,
    lexemes_signsWritten hop]
  refine (h.append (h'.front os)).imp fun ⟨hleft, hright⟩ => ?_
  refine .of_parts ?_ rfl (by simp [children, hleft.1, hright.1])
  cases op with
  | less =>
    rw [comparesBareTest, Bool.eq_false_iff]
    intro htest
    have htype : left.isTypeTest = true := by cases left <;> first | rfl | cases htest
    exact hless rfl htype (hleft.2 htest)
  | _ => rfl

/-- The two signs of a conditional stay between its parts. -/
theorem conditional {cs fs : List Token} {condition whenTrue whenFalse : Expr}
    (h : Printed cs condition) (h' : Printed ts whenTrue) (h'' : Printed fs whenFalse) :
    Printed (cs ++ ⟨.sign .question, s₁⟩ :: (ts ++ ⟨.punctuation ':', s₂⟩ :: fs))
      (.conditional span condition whenTrue whenFalse) := by
  have hchoice := (h'.append (h''.keep ⟨.punctuation ':', s₂⟩)).keep ⟨.sign .question, s₁⟩
  rw [Printed, written, List.map_append, List.map_cons, List.map_append, List.map_cons,
    Written.lexemes_space, Written.lexemes_space]
  exact (h.append hchoice).imp fun ⟨hcondition, htrue, hfalse⟩ =>
    .of_parts rfl rfl (by simp [children, hcondition.1, htrue.1, hfalse.1])

/-- The signs of an assignment stay between its parts. -/
theorem assign {os : List Token} {op : AssignOp} {target value : Expr}
    (hop : Token.AreSigns op.signs os) (h : Printed ts target) (h' : Printed us value) :
    Printed (ts ++ (os ++ us)) (.assign span op target value) := by
  rw [Printed, written, List.map_append, List.map_append, Written.lexemes_space,
    lexemes_signsWritten hop]
  exact (h.append (h'.front os)).imp fun ⟨htarget, hvalue⟩ =>
    .of_parts rfl rfl (by simp [children, htarget.1, hvalue.1])

end Printed

/-- The tokens of an expression are what it is printed as, except for empty angle brackets. Without
those no bare type test is compared. -/
theorem Derives.printed (h : Derives ts e) (hvalid : ∀ t ∈ ts, t.lexeme.Valid) : Printed ts e := by
  -- one case for each way to write a node; validity goes from the tokens to those of the parts
  induction h with
  | number s span => exact .leaf span (by rw [written, literalLexeme_ofNumber]) rfl rfl rfl
  | string _ span | name _ span | this span => exact .leaf span rfl rfl rfl rfl
  | character v span => exact .leaf span (by simp [written, literalLexeme]) rfl rfl rfl
  | boolean span | null span =>
    exact .leaf span (by rw [written, literalLexeme, wordLexeme_text]) rfl rfl rfl
  | field hvs _ _ ih =>
    subst hvs
    exact .field (ih fun t ht => hvalid t (by simp [ht]))
  | call hvs hargs _ ih =>
    subst hvs
    exact .call hargs fun p hp => ih p hp fun t ht => hvalid t (by simp [hargs.subset hp ht])
  | method hvs _ _ hargs _ ih ih' =>
    subst hvs
    exact .method (ih fun t ht => hvalid t (by simp [ht])) hargs
      fun p hp => ih' p hp fun t ht => hvalid t (by simp [hargs.subset hp ht])
  | index hvs _ _ _ ih ih' =>
    subst hvs
    exact .index (ih fun t ht => hvalid t (by simp [ht])) (ih' fun t ht => hvalid t (by simp [ht]))
  | creation hvs htype hargs _ ih =>
    subst hvs
    exact .creation (htype.derives.sheds fun t ht => hvalid t (by simp [ht])) hargs
      fun p hp => ih p hp fun t ht => hvalid t (by simp [hargs.subset hp ht])
  | @classLiteral _ _ _ _ _ _ s _ _ hvs hname hdims =>
    subst hvs
    rw [← List.append_assoc, ← List.cons_append] at hvalid ⊢
    exact .classLiteral ((TypeRef.Derives.plain s hname hdims).sheds
      fun t ht => hvalid t (List.mem_append_left _ ht))
  | @primitiveClass _ _ _ _ _ s _ _ hvs hword hdims =>
    subst hvs
    rw [← List.cons_append] at hvalid ⊢
    exact .classLiteral ((TypeRef.Derives.primitive s hword hdims).sheds
      fun t ht => hvalid t (List.mem_append_left _ ht))
  | enclosed hvs _ _ ih =>
    subst hvs
    exact .enclosed (ih fun t ht => hvalid t (by simp [ht]))
  | behind hvs hop _ _ ih =>
    subst hvs
    exact .behind hop (ih fun t ht => hvalid t (by simp [ht]))
  | before hvs hop _ _ ih =>
    subst hvs
    exact .before hop (ih fun t ht => hvalid t (by simp [ht]))
  | cast hvs htype _ _ _ ih =>
    subst hvs
    exact .cast (htype.sheds fun t ht => hvalid t (by simp [ht]))
      (ih fun t ht => hvalid t (by simp [ht]))
  | instanceOf hvs _ _ htype ih =>
    subst hvs
    exact .instanceOf (ih fun t ht => hvalid t (by simp [ht])) htype.ne_nil
      (htype.sheds fun t ht => hvalid t (by simp [ht]))
  | binary hvs hop _ _ _ _ hless ih ih' =>
    subst hvs
    exact .binary hop (ih fun t ht => hvalid t (by simp [ht]))
      (ih' fun t ht => hvalid t (by simp [ht])) hless
  | conditional hvs _ _ _ _ _ ih ih' ih'' =>
    subst hvs
    exact .conditional (ih fun t ht => hvalid t (by simp [ht]))
      (ih' fun t ht => hvalid t (by simp [ht])) (ih'' fun t ht => hvalid t (by simp [ht]))
  | assign hvs hop _ _ _ ih ih' =>
    subst hvs
    exact .assign hop (ih fun t ht => hvalid t (by simp [ht]))
      (ih' fun t ht => hvalid t (by simp [ht]))

end Expr

end Stencil
