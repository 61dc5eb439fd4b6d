import Stencil.Proofs.Expr.Shift
import Stencil.Proofs.Expr.WellFormed

/-!
# Expressions in parentheses

**The law** (`Expr.parse_parentheses`): an expression between parentheses is read as the expression in
parentheses, with its spans one byte further to the right, unless it starts with a reserved word for a
type; then reading fails. This is exact for every text that is read as an expression.

Behind a parenthesis the reader takes a reserved word for a type as the start of a cast and does not
turn back, so a class literal such as `int.class` cannot be put into parentheses
(`exists_not_parsed_in_parentheses`), and neither can anything that starts with one. An expression
that starts with such a word has a class literal in front (`Derives.exists_class`), and a type has no
`class` in it, so no type is found before the closing parenthesis (`castType?_eq_error`). The error
passes through all the levels of the reader (`assignment_eq_error`).

In the other case the tokens between the parentheses are those of the text, moved
(`Token.readFrom_parentheses`), and the grammar has a constructor for them.

**What it does not establish.** Texts that are no expression may become one between parentheses, as a
part of a cast for example; nothing is said of them.
-/

namespace Stencil

variable {text : String} {ts : List Token} {e : Expr}

/-! ## The tokens between parentheses -/

/-- A text between parentheses has its tokens, one byte further to the right, between them. -/
theorem Token.readFrom_parentheses (size : Nat) (more : List Char)
    (h : readFrom text.utf8ByteSize text.toList = (ts, none))
    (hsize : size = 2 + text.utf8ByteSize + Text.byteSize more) :
    readFrom size ('(' :: (text.toList ++ ')' :: more)) =
      (⟨.punctuation '(', ⟨0, 1⟩⟩ :: (ts.map (·.shift 1) ++
        ⟨.punctuation ')', ⟨1 + text.utf8ByteSize, 2 + text.utf8ByteSize⟩⟩ ::
          (readFrom size more).1), (readFrom size more).2) := by
  have hone : ')'.utf8Size = 1 ∧ '('.utf8Size = 1 := ⟨rfl, rfl⟩
  have hwhole : 1 + text.utf8ByteSize + Text.byteSize (')' :: more) = size := by
    simp only [hsize, Text.byteSize_cons, hone.1]
    omega
  have hmore := readFrom_append (k := 1) h (Nat.le_of_eq (Text.byteSize_toList text))
    (Text.closes_parenthesis more)
  rw [hwhole, readFrom_punctuation (by rfl) (by decide)] at hmore
  have hbehind : size - Text.byteSize (')' :: more) = 1 + text.utf8ByteSize ∧
      size - Text.byteSize more = 2 + text.utf8ByteSize := by
    simp only [hsize, Text.byteSize_cons, hone.1]
    omega
  have hfront : size - Text.byteSize ('(' :: (text.toList ++ ')' :: more)) = 0 ∧
      size - Text.byteSize (text.toList ++ ')' :: more) = 1 := by
    simp only [hsize, Text.byteSize_cons, Text.byteSize_append, Text.byteSize_toList, hone]
    omega
  rw [readFrom_punctuation (by rfl) (by decide), hmore, hbehind.1, hbehind.2, hfront.1, hfront.2]

/-! ## A word for a type behind a parenthesis -/

/-- An expression that starts with a word for a type has a class literal in front. -/
theorem Expr.Derives.exists_class (h : Derives ts e)
    (hword : ∀ t, ts.head? = some t → t.lexeme.isTypeWord = true) :
    ∃ t ∈ ts, t.lexeme = .keyword .classOf := by
  have hfront {ts us : List Token} {d : Expr} (h : Derives ts d)
      (ih : (∀ t, ts.head? = some t → t.lexeme.isTypeWord = true) →
        ∃ t ∈ ts, t.lexeme = .keyword .classOf)
      (hword : ∀ t, (ts ++ us).head? = some t → t.lexeme.isTypeWord = true) :
      ∃ t ∈ ts ++ us, t.lexeme = .keyword .classOf := by
    obtain ⟨u, vs, rfl, -⟩ := h.first
    obtain ⟨t, ht, hclass⟩ := ih hword
    exact ⟨t, List.mem_append_left _ ht, hclass⟩
  induction h with
  | number | string | character | null | name | this => cases hword _ rfl
  | boolean span h => rcases h with rfl | rfl <;> cases hword _ rfl
  | call hvs | creation hvs | classLiteral hvs | enclosed hvs | before hvs | cast hvs =>
    subst hvs
    cases hword _ rfl
  | @primitiveClass ds vs word name dims s s₁ s₂ hvs =>
    subst hvs
    exact ⟨⟨.keyword .classOf, s₂⟩, by simp, rfl⟩
  | field hvs h _ ih | method hvs h _ _ _ ih | index hvs h _ _ ih | behind hvs _ h _ ih
  | instanceOf hvs h _ _ ih | binary hvs _ h _ _ _ _ ih | conditional hvs h _ _ _ _ ih
  | assign hvs _ h _ _ ih =>
    subst hvs
    exact hfront h ih hword

/-- Dimensions have no `class` in them. -/
theorem TypeRef.Dims.ne_class {ds : List Token} {dims : Nat} (h : Dims ds dims) :
    ∀ t ∈ ds, t.lexeme ≠ .keyword .classOf := by
  induction h with
  | none => nofun
  | dim s₁ s₂ _ ih => simpa using ih

/-- A type that starts with a reserved word has no `class` in it. -/
theorem TypeRef.Derives.ne_class {type : TypeRef} (h : Derives ts type)
    (hword : ∀ t, ts.head? = some t → t.lexeme.isTypeWord = true) :
    ∀ t ∈ ts, t.lexeme ≠ .keyword .classOf := by
  cases h with
  | @primitive word name ds dims span hname hdims =>
    refine List.forall_mem_cons.2 ⟨?_, hdims.ne_class⟩
    rintro ⟨⟩
    cases hname
  | plain | diamond | generic => cases hword _ rfl

namespace Grammar

variable {c : Cursor} {error : SyntaxError} {nested : Nested}

/-- Behind a parenthesis, an expression that starts with a word for a type is taken for a broken
cast. -/
theorem castType?_eq_error {s₁ s₂ : Span} {rest : List Token} (h : Expr.Derives ts e)
    (hword : ∀ t, ts.head? = some t → t.lexeme.isTypeWord = true)
    (htokens : c.tokens = ⟨.punctuation '(', s₁⟩ :: (ts ++ ⟨.punctuation ')', s₂⟩ :: rest)) :
    castType? c = .error .cast := by
  obtain ⟨⟨l, s⟩, us, rfl, -⟩ := h.first
  have hl := hword _ rfl
  cases l with
  | keyword word =>
    rw [castType?, Cursor.punctuation?_eq_some.2 ⟨s₁, Cursor.takes_head htokens⟩]
    simp only [List.cons_append]
    rw [if_pos (show word.typeName?.isSome = true from hl)]
    split
    · next type c₁ hread =>
      split
      · next c₂ hclose =>
        -- the type would be all of the expression
        obtain ⟨s₃, h₃⟩ := Cursor.punctuation?_eq_some.1 hclose
        obtain ⟨ws, h₂, htype, -⟩ := TypeRef.parser_sound _ _ _ _ hread
        have heq := (h₂.trans h₃).tokens
        rw [List.append_assoc] at heq
        obtain ⟨rfl, -⟩ := h.opensFirst.append_inj htype.isParenthesis rfl rfl heq
        obtain ⟨t, ht, hclass⟩ := h.exists_class hword
        exact absurd hclass (htype.ne_class hword t ht)
      · rfl
    · rfl
  | _ => cases hl

/-- What stops the reader of casts stops the reader of prefixes, if no sign stands in front. -/
theorem prefixed_eq_error (hsign : c.signOf? prefixOp? = none) (h : castType? c = .error error) :
    prefixed nested c = .error error := by
  rw [prefixed, hsign, h]
  rfl

/-- What stops the reader of operands stops the reader of their level. -/
theorem binaryLevel_eq_error {operator? : Cursor → Option (BinaryOp × Cursor)} {next : Parser Expr}
    (h : next c = .error error) : binaryLevel operator? next c = .error error := by
  rw [binaryLevel, h]
  rfl

/-- What stops the reader of prefixes stops the reader of expressions. -/
theorem assignment_eq_error (h : prefixed nested c = .error error) :
    assignment nested c = .error error := by
  have hshift : shift nested c = .error error :=
    binaryLevel_eq_error (binaryLevel_eq_error (binaryLevel_eq_error h))
  have hrelational : relational nested c = .error error := by
    rw [relational, hshift]
    rfl
  have hdisjunction : disjunction nested c = .error error :=
    binaryLevel_eq_error (binaryLevel_eq_error (binaryLevel_eq_error (binaryLevel_eq_error
      (binaryLevel_eq_error (binaryLevel_eq_error hrelational)))))
  have hconditional : conditional nested c = .error error := by
    rw [conditional, hdisjunction]
    rfl
  rw [assignment, hconditional]
  rfl

end Grammar

/-! ## Expressions between parentheses -/

namespace Expr

/-- Whether an expression starts with a word for a type is seen by its first token. -/
theorem Derives.opensWithTypeWord_eq (h : Derives ts e) (hvalid : ∀ t ∈ ts, t.lexeme.Valid) {t : Token}
    (ht : ts.head? = some t) : e.opensWithTypeWord = t.lexeme.isTypeWord := by
  obtain ⟨u, us, vs, rfl, hwritten, -⟩ := h.front hvalid
  obtain rfl : u = t := Option.some.inj ht
  rw [opensWithTypeWord, hwritten]
  rfl

/-- What starts with a word for a type cannot be read behind a parenthesis. -/
theorem ofTokens_eq_error {s₁ s₂ : Span} (h : Derives ts e)
    (hword : ∀ t, ts.head? = some t → t.lexeme.isTypeWord = true) :
    ofTokens (⟨.punctuation '(', s₁⟩ :: (ts ++ [⟨.punctuation ')', s₂⟩])) = .error .cast := by
  let c := Cursor.ofTokens (⟨.punctuation '(', s₁⟩ :: (ts ++ [⟨.punctuation ')', s₂⟩]))
  have hcast : Grammar.castType? c = .error .cast := Grammar.castType?_eq_error h hword rfl
  have hread : read c = .error .cast :=
    Grammar.assignment_eq_error (Grammar.prefixed_eq_error rfl hcast)
  rw [ofTokens, if_neg (by simp), hread]
  rfl

/-- An expression that was read is read between parentheses, too, with its spans one byte further to
the right, unless it starts with a word for a type. Then it is rejected as a cast. -/
theorem parse_parentheses (h : parse text = .ok e) :
    parse ("(" ++ text ++ ")") =
      if e.opensWithTypeWord then .error .cast
      else .ok (.enclosed ⟨0, 2 + text.utf8ByteSize⟩ (e.shift 1)) := by
  obtain ⟨ts, hread, hts⟩ := parse_eq_ok.1 h
  obtain ⟨t, us, rfl, -⟩ := hts.first
  have hword := hts.opensWithTypeWord_eq (Token.valid_of_read hread) rfl
  have hmoved := hts.shift 1
  have hchars : ("(" ++ text ++ ")").toList = '(' :: (text.toList ++ [')']) := by simp
  have hsize : ("(" ++ text ++ ")").utf8ByteSize = 2 + text.utf8ByteSize + 0 := by
    rw [String.utf8ByteSize_append, String.utf8ByteSize_append]
    show 1 + text.utf8ByteSize + 1 = 2 + text.utf8ByteSize + 0
    omega
  have htokens := Token.readFrom_parentheses _ [] hread hsize
  rw [Token.readFrom_nil, ← hchars] at htokens
  -- Two cases by the first token of the expression; a reserved word for a type makes the reader fail.
  split
  · next hopens =>
    rw [hword] at hopens
    rw [parse_of_read htokens]
    exact ofTokens_eq_error hmoved (by rintro u ⟨⟩; exact hopens)
  · next hopens =>
    rw [hword, Bool.not_eq_true] at hopens
    have hcover : Token.cover (⟨.punctuation '(', ⟨0, 1⟩⟩ :: ((t :: us).map (·.shift 1) ++
        [⟨.punctuation ')', ⟨1 + text.utf8ByteSize, 2 + text.utf8ByteSize⟩⟩])) =
          ⟨0, 2 + text.utf8ByteSize⟩ := by
      rw [Token.cover, ← List.cons_append, Token.endOf, List.getLast?_append]
      rfl
    refine parse_eq_ok.2 ⟨_, htokens, ?_⟩
    rw [← hcover]
    exact .enclosed rfl hmoved (by rintro u ⟨⟩; exact hopens)

/-- A sum between parentheses. -/
theorem parse_parentheses_of_sum :
    parse "a+b" = .ok (binary ⟨0, 3⟩ .plus (name ⟨0, 1⟩ "a") (name ⟨2, 3⟩ "b")) ∧
      parse "(a+b)" =
        .ok (.enclosed ⟨0, 5⟩ (binary ⟨1, 4⟩ .plus (name ⟨1, 2⟩ "a") (name ⟨3, 4⟩ "b"))) := by
  have hread : Token.read "a+b" = ([⟨.identifier "a", ⟨0, 1⟩⟩, ⟨.sign .plus, ⟨1, 2⟩⟩,
      ⟨.identifier "b", ⟨2, 3⟩⟩], none) := by decide +kernel
  have hparse : parse "a+b" = .ok (binary ⟨0, 3⟩ .plus (name ⟨0, 1⟩ "a") (name ⟨2, 3⟩ "b")) := by
    rw [parse_of_read hread]
    with_unfolding_all rfl
  exact ⟨hparse, parse_parentheses hparse⟩

/-- A class literal that starts with a word for a type cannot be put into parentheses. -/
theorem exists_not_parsed_in_parentheses :
    ¬ ∀ text e, parse text = .ok e → ∃ span d, parse ("(" ++ text ++ ")") = .ok (.enclosed span d) ∧
      d.eraseSpans = e.eraseSpans := by
  intro hall
  have hread : Token.read "int.class" = ([⟨.keyword (.primitive .int), ⟨0, 3⟩⟩,
      ⟨.punctuation '.', ⟨3, 4⟩⟩, ⟨.keyword .classOf, ⟨4, 9⟩⟩], none) := by decide +kernel
  have hparse : parse "int.class" = .ok (classLiteral ⟨0, 9⟩ .int) := by
    rw [parse_of_read hread]
    with_unfolding_all rfl
  obtain ⟨span, d, hagain, -⟩ := hall _ _ hparse
  have hreject : Token.read "(int.class)" = ([⟨.punctuation '(', ⟨0, 1⟩⟩,
      ⟨.keyword (.primitive .int), ⟨1, 4⟩⟩, ⟨.punctuation '.', ⟨4, 5⟩⟩,
      ⟨.keyword .classOf, ⟨5, 10⟩⟩, ⟨.punctuation ')', ⟨10, 11⟩⟩], none) := by decide +kernel
  have hcast : parse "(int.class)" = .error .cast := by
    rw [parse_of_read hreject]
    with_unfolding_all rfl
  rw [show "(" ++ "int.class" ++ ")" = "(int.class)" from rfl, hcast] at hagain
  cases hagain

end Expr

end Stencil
