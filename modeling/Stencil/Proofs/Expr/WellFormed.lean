import Stencil.Proofs.Expr.Part
import Stencil.Proofs.TypeRef.Writable

/-!
# Printing trees that were never read

Trees are rewritten before they are printed, so the printer meets trees that no text was read as.

**The law** (`parse_print_of_wellFormed`): a tree is read back from what it is printed as, up to
spans, if three things hold of its nodes. The nodes respect the levels of the grammar, so that the
printer needs no parentheses of its own (`RespectsLevels`); what the leaves hold can be written, as a
name is a name and a number is spelled as one (`WellFormed`); and no node is printed as something that
is read differently (`Legible`): a sign against the same sign, a point against an integer, a bare type
test before a `<`, a parenthesis before a word for a type, a cast to a class before what cannot follow
it.

The proof gives such a tree tokens: those of its printed lexemes, without places (`derives_tokens`).
Then everything that holds of trees that were read holds of it. There is one lemma for each node that
asks for more than its parts: `derives_literal`, `derives_classLiteral`, `derives_cast`,
`derives_unary`, `derives_binary`, `derives_enclosed`. `parse_print_of_built` is such a tree.

**What it does not establish.** The three conditions are enough; that each is necessary is not shown
here.
-/

namespace Stencil

open Token (IsName wordLexeme)
open Written (Valid tokens separated space texts)

/-- Some literal of the kind has the value. -/
def LiteralKind.Writes (kind : LiteralKind) (value : String) : Prop :=
  match kind with
  | .string => True
  | .character => ∃ c, value = String.singleton c
  | .boolean => value = "true" ∨ value = "false"
  | .null => value = "null"
  | .int | .long | .float | .double =>
    LiteralKind.ofNumber value = kind ∧ ∃ span, Token.readAll value = .ok [⟨.number value, span⟩]

namespace Expr

/-- What the node itself holds can be written: names are identifiers, literals have values of their
kind, and types stand where the grammar has them. -/
def WellFormed : Expr → Prop
  | literal _ kind value => kind.Writes value
  | name _ n | field _ _ n | call _ n _ | method _ _ n _ => IsName n
  | creation _ type _ => type.Writable ∧ ∃ n args, type = .named n args 0 ∧ TypeRef.IsClassName n
  | classLiteral _ type => type.Writable ∧ ∃ n dims, type = .named n [] dims
  | cast _ type _ | instanceOf _ _ type => type.Writable
  | this _ | index .. | unary .. | binary .. | conditional .. | assign .. | enclosed .. => True

/-- Whether the expression is a decimal integer. -/
def isDecimal : Expr → Bool
  | literal _ .int value => !NumberLiteral.isHexadecimal value.toList
  | _ => false

/-- Whether the first lexeme of the printed expression is a reserved word that names a type. -/
def opensWithTypeWord (e : Expr) : Bool := e.written.head?.any (·.lexeme.isTypeWord)

/-- The node is not printed as something else: no plus or minus stands directly before its like, no
point behind a decimal integer, no word for a type behind a parenthesis that does not open a cast, no
sign or word for a type behind a cast to a class, and no `<` behind a class that could have
arguments. -/
def Legible : Expr → Prop
  | unary _ .plus operand => operand.print.toList.head? ≠ some '+'
  | unary _ .minus operand => operand.print.toList.head? ≠ some '-'
  | field _ scope _ | method _ scope _ _ => scope.isDecimal = false
  | enclosed _ inner => inner.opensWithTypeWord = false
  | cast _ (.named n _ _) operand => TypeRef.IsClassName n →
      operand.print.toList.head? ∉ [some '+', some '-'] ∧ operand.opensWithTypeWord = false
  | binary _ .less left _ => left.isBareTest = false
  | _ => True

variable {e : Expr} {ts : List Token}

/-! ## Legible nodes read back -/

/-- A legible node is printed in none of the three ways that are read differently. -/
theorem Legible.readsBack (h : e.Legible) : e.ReadsBack := by
  refine ⟨⟨?_, ?_⟩, ?_⟩
  · rw [Bool.eq_false_iff]
    -- Two signs that would be read as one: only `+` and `-` in front of their like.
    intro hdoubles
    cases e with
    | unary _ op operand =>
      cases operand with
      | unary _ op' d =>
        cases op with
        | plus =>
          simp only [doublesSign, Bool.or_eq_true, beq_iff_eq] at hdoubles
          rcases hdoubles with rfl | rfl <;>
            exact h (by simp [print, UnaryOp.isBehind, UnaryOp.sign, Sign.text])
        | minus =>
          simp only [doublesSign, Bool.or_eq_true, beq_iff_eq] at hdoubles
          rcases hdoubles with rfl | rfl <;>
            exact h (by simp [print, UnaryOp.isBehind, UnaryOp.sign, Sign.text])
        | _ => cases hdoubles
      | _ => cases op <;> cases hdoubles
    | _ => cases hdoubles
  · -- A whole number in front of a dot would be read as a decimal one.
    have hscope {scope : Expr} (h : scope.isDecimal = false) : scope.isWholeNumber = false := by
      rw [Bool.eq_false_iff]
      intro hwhole
      cases scope with
      | literal _ kind value =>
        cases kind with
        | int => simp [isDecimal, NumberLiteral.isHexadecimal_of_isWhole hwhole] at h
        | _ => cases hwhole
      | _ => cases hwhole
    cases e with
    | field _ scope | method _ scope => exact hscope h
    | _ => rfl
  · cases e with
    | binary _ op left =>
      cases op with
      | less => exact h
      | _ => rfl
    | _ => rfl

/-! ## Trees without spans -/

/-- Whether an expression is an integer does not depend on spans. -/
theorem isWholeNumber_eraseSpans (e : Expr) : e.eraseSpans.isWholeNumber = e.isWholeNumber := by
  cases e with
  | literal _ kind => cases kind <;> rfl
  | _ => rfl

/-- Whether a node reads back does not depend on spans. -/
theorem readsBack_eraseSpans (e : Expr) : e.eraseSpans.ReadsBack ↔ e.ReadsBack := by
  have hdoubles : e.eraseSpans.doublesSign = e.doublesSign := by
    cases e with
    | unary _ op operand => cases operand <;> cases op <;> rfl
    | _ => rfl
  have hpoints : e.eraseSpans.pointsAtNumber = e.pointsAtNumber := by
    cases e with
    | field _ scope | method _ scope => exact isWholeNumber_eraseSpans scope
    | _ => rfl
  rw [ReadsBack, ReadsBack, Separate, Separate, hdoubles, hpoints, comparesBareTest_eraseSpans]

/-- There are no spans left to erase. -/
theorem eraseSpans_eraseSpans (e : Expr) : e.eraseSpans.eraseSpans = e.eraseSpans := by
  induction e using inductParts with
  | h e ih => cases e <;> simp_all [eraseSpans, eraseSpansList_eq, children]

/-- Spans are not printed. -/
theorem print_eraseSpans (e : Expr) : e.eraseSpans.print = e.print := by
  induction e using inductParts with
  | h e ih =>
    have hlist {args : List Expr} (h : ∀ d ∈ args, d.eraseSpans.print = d.print) :
        printArgs (eraseSpansList args) = printArgs args := by
      have hprint : (args.map eraseSpans).map print = args.map print := by
        rw [List.map_map]
        exact List.map_congr_left h
      rw [printArgs, printArgs, printList_eq, printList_eq, eraseSpansList_eq, hprint]
    cases e with
    | literal _ kind => cases kind <;> simp only [eraseSpans, print]
    | call _ _ args | creation _ _ args => rw [eraseSpans, print, print, @hlist args ih]
    | method _ scope _ args =>
      obtain ⟨hscope, hargs⟩ := List.forall_mem_cons.1 ih
      rw [eraseSpans, print, print, hscope, hlist hargs]
    | _ => simp_all [eraseSpans, print, children]

/-! ## Tokens without places -/

/-- Tokens without places span nothing. -/
@[simp] theorem cover_tokens (ws : List Written) : Token.cover (tokens ws) = ⟨0, 0⟩ := by
  have hstop : ∀ t ∈ (tokens ws).getLast?, t.span = ⟨0, 0⟩ := by
    intro t ht
    obtain ⟨w, -, rfl⟩ := List.mem_map.1 (List.mem_of_getLast? ht)
    rfl
  rw [Token.cover, Token.endOf]
  cases hlast : (tokens ws).getLast? with
  | none => cases ws <;> rfl
  | some t =>
    rw [Option.map_some, hstop t hlast]
    cases ws <;> rfl

/-- Signs without places touch. -/
theorem areSigns_tokens (ss : List Sign) : Token.AreSigns ss (tokens (signsWritten ss)) := by
  rw [signsWritten, Written.tokens_space]
  induction ss with
  | nil => trivial
  | cons s ss ih =>
    refine ⟨rfl, fun u hu => ?_, ih⟩
    cases ss with
    | nil => cases hu
    | cons s' ss =>
      obtain rfl := Option.some.inj hu
      rfl

/-- The signs of an operator are valid lexemes. -/
theorem valid_signsWritten (ss : List Sign) : Valid (signsWritten ss) := by
  rw [signsWritten, Written.valid_space]
  intro w hw
  obtain ⟨s, -, rfl⟩ := List.mem_map.1 hw
  trivial

/-- Printed arguments are tokens of arguments. -/
theorem areArguments_tokens (args : List Expr) :
    AreArguments (tokens (argsWritten (writtenList args)))
      (args.map fun d => (tokens d.written, d.eraseSpans)) := by
  refine ⟨tokens (separated (args.map written)), ⟨0, 0⟩, ⟨0, 0⟩, ?_, ?_⟩
  · simpa [Function.comp_def] using Written.joined_tokens (args.map written)
  · simp [argsWritten, writtenList_eq]

/-- Arguments in their parentheses are valid lexemes if each of them is. -/
theorem valid_argsWritten {args : List Expr} (h : ∀ d ∈ args, Valid d.written) :
    Valid (argsWritten (writtenList args)) := by
  have hargs : ∀ ws ∈ args.map written, Valid ws := List.forall_mem_map.2 h
  rw [argsWritten, writtenList_eq]
  exact Written.valid_cons.2 ⟨rfl, Written.valid_append.2
    ⟨Written.valid_separated hargs, Written.valid_cons.2 ⟨rfl, Written.valid_nil⟩⟩⟩

/-! ## Leaves -/

/-- A literal with a value of its kind has one valid lexeme, which is the literal. -/
theorem derives_literal {kind : LiteralKind} {value : String} (h : kind.Writes value) :
    (literalLexeme kind value).Valid ∧
      Derives [⟨literalLexeme kind value, ⟨0, 0⟩⟩] (literal ⟨0, 0⟩ kind value) := by
  have hnumber (h : LiteralKind.ofNumber value = kind ∧
      ∃ span, Token.readAll value = .ok [⟨.number value, span⟩]) :
      (Lexeme.number value).Valid ∧
        Derives [⟨.number value, ⟨0, 0⟩⟩] (literal ⟨0, 0⟩ kind value) := by
    obtain ⟨rfl, span, hread⟩ := h
    refine ⟨?_, .number value ⟨0, 0⟩⟩
    rw [Token.readAll, Token.read] at hread
    split at hread
    · next heq =>
      obtain rfl := Except.ok.inj hread
      exact Token.valid_of_read heq ⟨.number value, span⟩ (by simp)
    · cases hread
  cases kind with
  | int | long | float | double => exact hnumber h
  | string => exact ⟨trivial, .string value ⟨0, 0⟩⟩
  | character =>
    obtain ⟨c, rfl⟩ := h
    rw [literalLexeme, String.toList_singleton]
    exact ⟨trivial, .character c ⟨0, 0⟩⟩
  | boolean =>
    rw [literalLexeme]
    rcases h with rfl | rfl
    · exact ⟨trivial, .boolean ⟨0, 0⟩ (.inl rfl)⟩
    · exact ⟨trivial, .boolean ⟨0, 0⟩ (.inr rfl)⟩
  | null =>
    rw [show value = Keyword.nullValue.text from h, literalLexeme, wordLexeme_text]
    exact ⟨trivial, .null ⟨0, 0⟩⟩

/-! ## Trees -/

/-- Every lexeme of a well-formed tree is valid. -/
theorem valid_written (h : e.All WellFormed) : Valid e.written := by
  induction e using inductParts with
  | h e ih =>
    have hparts (d : Expr) (hd : d ∈ e.children) : Valid d.written := ih d hd (h.parts d hd)
    have hnode := h.node
    cases e with
    | literal => exact Written.valid_cons.2 ⟨(derives_literal hnode).1, Written.valid_nil⟩
    | name | this => exact Written.valid_cons.2 ⟨hnode, Written.valid_nil⟩
    | call => exact Written.valid_cons.2 ⟨hnode, valid_argsWritten hparts⟩
    | creation =>
      refine Written.valid_cons.2 ⟨trivial, Written.valid_append.2 ⟨?_, valid_argsWritten hparts⟩⟩
      exact Written.valid_space.2 hnode.1.valid
    | method _ scope _ args =>
      obtain ⟨hscope, hargs⟩ := List.forall_mem_cons.1 hparts
      refine Written.valid_append.2 ⟨hscope, Written.valid_cons.2 ⟨rfl, ?_⟩⟩
      exact Written.valid_cons.2 ⟨hnode, valid_argsWritten hargs⟩
    | classLiteral _ type =>
      refine Written.valid_append.2 ⟨hnode.1.valid, Written.valid_cons.2 ⟨rfl, ?_⟩⟩
      exact Written.valid_cons.2 ⟨trivial, Written.valid_nil⟩
    | unary _ op operand =>
      have hoperand := hparts operand (by simp [children])
      rw [written]
      split <;> simp [hoperand, Lexeme.Valid]
    | field _ scope =>
      refine Written.valid_append.2 ⟨hparts scope (by simp [children]), Written.valid_cons.2 ⟨rfl, ?_⟩⟩
      exact Written.valid_cons.2 ⟨hnode, Written.valid_nil⟩
    | cast _ type operand =>
      refine Written.valid_cons.2 ⟨rfl, Written.valid_append.2 ⟨?_, Written.valid_cons.2 ⟨rfl, ?_⟩⟩⟩
      · exact TypeRef.Writable.valid hnode
      · exact Written.valid_space.2 (hparts operand (by simp [children]))
    | instanceOf _ operand type =>
      refine Written.valid_append.2 ⟨hparts operand (by simp [children]), ?_⟩
      exact Written.valid_cons.2 ⟨trivial, Written.valid_space.2 (TypeRef.Writable.valid hnode)⟩
    | index _ array position =>
      have harray := hparts array (by simp [children])
      have hposition := hparts position (by simp [children])
      simp [written, harray, hposition, Lexeme.Valid, Step.isPunctuation]
    | binary _ op left right =>
      have hleft := hparts left (by simp [children])
      have hright := hparts right (by simp [children])
      simp [written, hleft, hright, valid_signsWritten]
    | conditional _ condition whenTrue whenFalse =>
      have hcondition := hparts condition (by simp [children])
      have hwhenTrue := hparts whenTrue (by simp [children])
      have hwhenFalse := hparts whenFalse (by simp [children])
      simp [written, hcondition, hwhenTrue, hwhenFalse, Lexeme.Valid, Step.isPunctuation]
    | assign _ op target value =>
      have htarget := hparts target (by simp [children])
      have hvalue := hparts value (by simp [children])
      simp [written, htarget, hvalue, valid_signsWritten]
    | enclosed _ inner =>
      have hinner := hparts inner (by simp [children])
      simp [written, hinner, Lexeme.Valid, Step.isPunctuation]

/-- The first lexeme of a printed tree is the first token, and its text starts that of the tree. -/
theorem Derives.first_written (h : Derives (tokens e.written) e.eraseSpans)
    (hvalid : Valid e.written) :
    ∃ l vs, e.written = ⟨false, l⟩ :: vs ∧ startsWith l = true ∧
      ∃ rest, e.print.toList = l.spelling ++ rest := by
  obtain ⟨t, us, vs, -, hwritten, hstarts⟩ := h.front (Written.valid_of_mem_tokens hvalid)
  have htexts := h.texts_written
  rw [written_eraseSpans] at hwritten
  rw [written_eraseSpans, print_eraseSpans, hwritten] at htexts
  exact ⟨t.lexeme, vs, hwritten, hstarts, texts vs, htexts.symm⟩

/-- Behind a cast to a class stands what can be its operand unless a sign or a word for a type
does. -/
theorem startsOperand_of_startsWith {l : Lexeme} {rest : List Char} (h : startsWith l = true)
    (hsign : (l.spelling ++ rest).head? ∉ [some '+', some '-']) (hword : l.isTypeWord = false) :
    l.startsOperand = true := by
  cases l with
  | identifier | number | string | character => rfl
  | punctuation p => exact h
  | keyword word =>
    cases word with
    | primitive | voidType => cases hword
    | super | instanceOf | classOf => cases h
    | _ => rfl
  | sign s =>
    cases s with
    | bang | tilde => rfl
    | plus | minus | plusPlus | minusMinus =>
      exact absurd (by simp [Lexeme.spelling, Sign.text]) hsign
    | _ => cases h

/-- The class literal of a type without arguments. -/
theorem derives_classLiteral {n : String} {dims : Nat} {s : Span}
    (h : (TypeRef.named n [] dims).Writable) :
    Derives (tokens (written (classLiteral s (.named n [] dims))))
      (classLiteral ⟨0, 0⟩ (.named n [] dims)) := by
  rw [← cover_tokens (written (classLiteral s (.named n [] dims)))]
  cases h with
  | @ofWord word _ hword =>
    have hvs : tokens (written (classLiteral s (.named n [] dims))) =
        ⟨.keyword word, ⟨0, 0⟩⟩ :: (tokens (TypeRef.dimsWritten dims) ++
          [⟨.punctuation '.', ⟨0, 0⟩⟩, ⟨.keyword .classOf, ⟨0, 0⟩⟩]) := by
      simp [written, TypeRef.written, TypeRef.nameWritten_of_typeName? hword]
    exact .primitiveClass hvs hword (TypeRef.dims_tokens dims)
  | ofClass hname =>
    obtain ⟨first, ts, htokens, hdotted⟩ := hname.dotted
    have hvs : tokens (written (classLiteral s (.named n [] dims))) =
        ⟨.identifier first, ⟨0, 0⟩⟩ :: (ts ++ (tokens (TypeRef.dimsWritten dims) ++
          [⟨.punctuation '.', ⟨0, 0⟩⟩, ⟨.keyword .classOf, ⟨0, 0⟩⟩])) := by
      simp [written, TypeRef.written, htokens]
    exact .classLiteral hvs hdotted (TypeRef.dims_tokens dims)

/-- A cast to a type that can be written; a legible one may stand before its operand. -/
theorem derives_cast {s : Span} {type : TypeRef} {operand : Expr}
    (hoperand : Derives (tokens operand.written) operand.eraseSpans)
    (hvalid : Valid operand.written) (htype : type.Writable)
    (hlevel : RespectsLevels (cast s type operand)) (hplain : Legible (cast s type operand)) :
    Derives (tokens (written (cast s type operand))) (cast s type operand).eraseSpans := by
  have hvs : tokens (written (cast s type operand)) = ⟨.punctuation '(', ⟨0, 0⟩⟩ ::
      (tokens type.written ++ ⟨.punctuation ')', ⟨0, 0⟩⟩ :: tokens operand.written) := by
    simp [written]
  rw [eraseSpans, ← cover_tokens (written (cast s type operand))]
  refine .cast hvs htype.derives hoperand (by simpa [RespectsLevels] using hlevel) ?_
  obtain ⟨l, vs, hwritten, hstarts, rest, hprint⟩ := hoperand.first_written hvalid
  intro t u ht hu
  rw [hwritten] at hu
  obtain rfl := Option.some.inj hu
  cases htype with
  | ofWord hword dims =>
    rw [TypeRef.written, TypeRef.nameWritten_of_typeName? hword] at ht
    obtain rfl := Option.some.inj ht
    exact .inl (by simp [Lexeme.isTypeWord, hword])
  | ofClass hname =>
    obtain ⟨hsign, hword⟩ := hplain hname
    rw [hprint] at hsign
    rw [opensWithTypeWord, hwritten] at hword
    exact .inr (startsOperand_of_startsWith hstarts hsign hword)

/-- An operator with one operand of the level it asks for. -/
theorem derives_unary {s : Span} {op : UnaryOp} {operand : Expr}
    (hoperand : Derives (tokens operand.written) operand.eraseSpans)
    (hlevel : RespectsLevels (unary s op operand)) :
    Derives (tokens (written (unary s op operand))) (unary s op operand).eraseSpans := by
  rw [eraseSpans, ← cover_tokens (written (unary s op operand))]
  cases hop : op.isBehind with
  | true =>
    have hvs : tokens (written (unary s op operand)) =
        tokens operand.written ++ [⟨.sign op.sign, ⟨0, 0⟩⟩] := by simp [written, hop]
    exact .behind hvs hop hoperand (by simpa [RespectsLevels, hop] using hlevel)
  | false =>
    have hvs : tokens (written (unary s op operand)) =
        ⟨.sign op.sign, ⟨0, 0⟩⟩ :: tokens operand.written := by simp [written, hop]
    exact .before hvs hop hoperand (by simpa [RespectsLevels, hop] using hlevel)

/-- A comparison that is legible does not compare a bare type test. -/
theorem derives_binary {s : Span} {op : BinaryOp} {left right : Expr}
    (hleft : Derives (tokens left.written) left.eraseSpans)
    (hright : Derives (tokens right.written) right.eraseSpans) (hvalid : Valid left.written)
    (hlevel : RespectsLevels (binary s op left right)) (hplain : Legible (binary s op left right)) :
    Derives (tokens (written (binary s op left right))) (binary s op left right).eraseSpans := by
  have hvs : tokens (written (binary s op left right)) = tokens left.written ++
      (tokens (signsWritten op.signs) ++ tokens right.written) := by simp [written]
  rw [eraseSpans, ← cover_tokens (written (binary s op left right))]
  refine .binary hvs (areSigns_tokens op.signs) hleft hright (by simpa using hlevel.1)
    (by simpa using hlevel.2) ?_
  rintro rfl htest hends
  have hbare := hleft.isBareTest (Written.valid_of_mem_tokens hvalid) htest hends
  rw [isBareTest_eraseSpans] at hbare
  exact absurd hbare (Bool.eq_false_iff.1 hplain)

/-- Parentheses that are legible do not open with a word for a type. -/
theorem derives_enclosed {s : Span} {inner : Expr}
    (hinner : Derives (tokens inner.written) inner.eraseSpans)
    (hplain : Legible (enclosed s inner)) :
    Derives (tokens (written (enclosed s inner))) (enclosed s inner).eraseSpans := by
  have hvs : tokens (written (enclosed s inner)) = ⟨.punctuation '(', ⟨0, 0⟩⟩ ::
      (tokens inner.written ++ [⟨.punctuation ')', ⟨0, 0⟩⟩]) := by simp [written]
  rw [eraseSpans, ← cover_tokens (written (enclosed s inner))]
  refine .enclosed hvs hinner fun t ht => ?_
  obtain ⟨l, vs, hwritten⟩ := inner.fronted_written
  have hword : inner.opensWithTypeWord = false := hplain
  rw [opensWithTypeWord, hwritten] at hword
  rw [hwritten] at ht
  obtain rfl := Option.some.inj ht
  exact hword

/-- Arguments without spans are the trees of their tokens. -/
theorem eraseSpansList_args (args : List Expr) : eraseSpansList args =
    (args.map fun d => (tokens d.written, d.eraseSpans)).map (·.2) := by
  simp [eraseSpansList_eq]

/-- The lexemes of a well-formed and legible tree are tokens of the tree. -/
theorem derives_tokens (hlevels : e.All RespectsLevels) (hleaves : e.All WellFormed)
    (hlegible : e.All Legible) : Derives (tokens e.written) e.eraseSpans := by
  induction e using inductParts with
  | h e ih =>
    -- What is asked of the tree is asked of each of its parts, so the parts are derived by induction.
    have hparts (d : Expr) (hd : d ∈ e.children) : Derives (tokens d.written) d.eraseSpans :=
      ih d hd (hlevels.parts d hd) (hleaves.parts d hd) (hlegible.parts d hd)
    have hvalid (d : Expr) (hd : d ∈ e.children) : Valid d.written :=
      valid_written (hleaves.parts d hd)
    have hlevel := hlevels.node
    have hnode := hleaves.node
    have hplain := hlegible.node
    cases e with
    | literal => exact (derives_literal hnode).2
    | name | this => constructor
    | field s scope n =>
      rw [eraseSpans, ← cover_tokens (written (field s scope n))]
      exact .field (Written.tokens_append ..) (hparts scope (by simp [children]))
        (by simpa [RespectsLevels] using hlevel)
    | call s n args =>
      rw [eraseSpans, eraseSpansList_args, ← cover_tokens (written (call s n args))]
      exact .call (Written.tokens_cons ..) (areArguments_tokens args) (List.forall_mem_map.2 hparts)
    | method s scope n args =>
      obtain ⟨hscope, hrest⟩ := List.forall_mem_cons.1 hparts
      rw [eraseSpans, eraseSpansList_args, ← cover_tokens (written (method s scope n args))]
      exact .method (Written.tokens_append ..) hscope (by simpa [RespectsLevels] using hlevel)
        (areArguments_tokens args) (List.forall_mem_map.2 hrest)
    | index s array position =>
      have hvs : tokens (written (index s array position)) = tokens array.written ++
          ⟨.punctuation '[', ⟨0, 0⟩⟩ :: (tokens position.written ++ [⟨.punctuation ']', ⟨0, 0⟩⟩]) := by
        simp [written]
      rw [eraseSpans, ← cover_tokens (written (index s array position))]
      exact .index hvs (hparts array (by simp [children])) (by simpa [RespectsLevels] using hlevel)
        (hparts position (by simp [children]))
    | creation s type args =>
      obtain ⟨htype, n, typeArgs, rfl, hname⟩ := hnode
      have hvs : tokens (written (creation s (.named n typeArgs 0) args)) =
          ⟨.keyword .newObject, ⟨0, 0⟩⟩ :: (tokens (TypeRef.named n typeArgs 0).written ++
            tokens (argsWritten (writtenList args))) := by simp [written]
      rw [eraseSpans, eraseSpansList_args, ← cover_tokens (written (creation s (.named n typeArgs 0) args))]
      exact .creation hvs (htype.derivesClass hname) (areArguments_tokens args) (List.forall_mem_map.2 hparts)
    | cast s type operand =>
      exact derives_cast (hparts operand (by simp [children])) (hvalid operand (by simp [children]))
        hnode hlevel hplain
    | instanceOf s operand type =>
      have hvs : tokens (written (instanceOf s operand type)) = tokens operand.written ++
          ⟨.keyword .instanceOf, ⟨0, 0⟩⟩ :: tokens type.written := by simp [written]
      rw [eraseSpans, ← cover_tokens (written (instanceOf s operand type))]
      exact .instanceOf hvs (hparts operand (by simp [children]))
        (by simpa [RespectsLevels] using hlevel) (TypeRef.Writable.derives hnode)
    | classLiteral s type =>
      obtain ⟨htype, n, dims, rfl⟩ := hnode
      exact derives_classLiteral htype
    | unary s op operand =>
      exact derives_unary (hparts operand (by simp [children])) hlevel
    | binary s op left right =>
      exact derives_binary (hparts left (by simp [children])) (hparts right (by simp [children]))
        (hvalid left (by simp [children])) hlevel hplain
    | conditional s condition whenTrue whenFalse =>
      have hvs : tokens (written (conditional s condition whenTrue whenFalse)) =
          tokens condition.written ++ ⟨.sign .question, ⟨0, 0⟩⟩ :: (tokens whenTrue.written ++
            ⟨.punctuation ':', ⟨0, 0⟩⟩ :: tokens whenFalse.written) := by simp [written]
      rw [eraseSpans, ← cover_tokens (written (conditional s condition whenTrue whenFalse))]
      exact .conditional hvs (hparts condition (by simp [children]))
        (hparts whenTrue (by simp [children])) (hparts whenFalse (by simp [children]))
        (by simpa using hlevel.1) (by simpa using hlevel.2)
    | assign s op target value =>
      have hvs : tokens (written (assign s op target value)) = tokens target.written ++
          (tokens (signsWritten op.signs) ++ tokens value.written) := by simp [written]
      rw [eraseSpans, ← cover_tokens (written (assign s op target value))]
      exact .assign hvs (areSigns_tokens op.signs) (hparts target (by simp [children]))
        (hparts value (by simp [children])) (by rw [isTarget_eraseSpans]; exact hlevel)
    | enclosed s inner => exact derives_enclosed (hparts inner (by simp [children])) hplain

/-- A well-formed tree that respects the levels, whether it was read or built by hand, is read back
from what it is printed as if every node is legible. -/
theorem parse_print_of_wellFormed (hlevels : e.All RespectsLevels) (hleaves : e.All WellFormed)
    (hlegible : e.All Legible) : ∃ d, parse e.print = .ok d ∧ d.eraseSpans = e.eraseSpans := by
  have hvalid := Written.valid_of_mem_tokens (valid_written hleaves)
  have hbacks : e.eraseSpans.All ReadsBack :=
    (all_eraseSpans readsBack_eraseSpans e).2 (hlegible.imp fun _ hd => hd.readsBack)
  obtain ⟨d, hparse, herase⟩ := (derives_tokens hlevels hleaves hlegible).parse_print hvalid hbacks
  rw [print_eraseSpans] at hparse
  exact ⟨d, hparse, herase.trans (eraseSpans_eraseSpans e)⟩

/-- A tree that was built and has no places: `a < 0x1F ? this.f('"') : new b.C<?>(-!d)`. -/
theorem parse_print_of_built :
    let e := conditional ⟨0, 0⟩ (binary ⟨0, 0⟩ .less (name ⟨0, 0⟩ "a") (literal ⟨0, 0⟩ .int "0x1F"))
      (method ⟨0, 0⟩ (this ⟨0, 0⟩) "f" [literal ⟨0, 0⟩ .character "\""])
      (creation ⟨0, 0⟩ (.named "b.C" [.simple "?"] 0)
        [unary ⟨0, 0⟩ .minus (unary ⟨0, 0⟩ .not (name ⟨0, 0⟩ "d"))])
    e.All RespectsLevels ∧ e.All WellFormed ∧ e.All Legible ∧
      ∃ d, parse e.print = .ok d ∧ d.eraseSpans = e.eraseSpans := by
  intro e
  have hlevels : e.All RespectsLevels := by
    rw [all_iff_nodes 0]
    simp [e, nodes, nodesOfList, RespectsLevels, level, BinaryOp.level, UnaryOp.isBehind]
  have hread : Token.read "0x1F" = ([⟨.number "0x1F", ⟨0, 4⟩⟩], none) := by decide +kernel
  have hnumber : Token.readAll "0x1F" = .ok [⟨.number "0x1F", ⟨0, 4⟩⟩] := by
    rw [Token.readAll, hread]
  have hkind : LiteralKind.ofNumber "0x1F" = .int := by decide
  have hclass : TypeRef.IsClassName "b.C" := by decide +kernel
  have htype : (TypeRef.named "b.C" [.simple "?"] 0).Writable := .ofClass hclass (by simp) 0
  have hnames : IsName "a" ∧ IsName "f" ∧ IsName "d" := by decide +kernel
  have hquote : ∃ c, "\"" = String.singleton c := ⟨'"', rfl⟩
  have hleaves : e.All WellFormed := by
    rw [all_iff_nodes 0]
    simp [e, nodes, nodesOfList, WellFormed, LiteralKind.Writes, hnumber, hkind, hclass, htype,
      hnames, hquote]
  have hlegible : e.All Legible := by
    rw [all_iff_nodes 0]
    simp [e, nodes, nodesOfList, Legible, isBareTest, isDecimal, print, UnaryOp.isBehind,
      UnaryOp.sign, Sign.text]
  exact ⟨hlevels, hleaves, hlegible, parse_print_of_wellFormed hlevels hleaves hlegible⟩

end Expr

end Stencil
