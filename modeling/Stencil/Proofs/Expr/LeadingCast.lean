import Stencil.Proofs.Expr.Enclosed
import Stencil.Proofs.TypeRef.RoundTrip

/-!
# Leading casts

A cast in front of a chain of binary operators is read as a cast of its leftmost operand, and taking
the leading cast of an expression looks for one there.

**The law** (`takeLeadingCast_parse`): a cast that is written before an expression is the one that is
taken off again, and the expression is what it was but for its spans. It holds for every type and
every expression of the level of the binary operators or a higher one, if the cast is read as one at
all: its type has a reserved name, or what stands behind it can start the operand of a cast to a
class. The leftmost operand must be no type test, as its type would go on.

`Derives.exists_leadingCast` is the law for tokens. The induction is over the parts of the expression
and goes down its left operands; where a cast is put before the leftmost one, every level above stays
high enough for its operator. In front of the text, the tokens of the type and those of the expression
only move (`Token.readFrom_parentheses`, `Token.readFrom_append`).

**What it does not establish.** Assignments and conditionals are not of the level asked for: a cast
written before one of them is a cast of its first operand, too, but is not taken off.
-/

namespace Stencil

variable {ts us : List Token} {type : TypeRef} {e : Expr} {typeText text : String}

/-- Whether the name of the type is a reserved word, as that of a primitive type or of an array of
them is. -/
def TypeRef.hasReservedName : TypeRef → Bool
  | .named name _ _ => (Keyword.ofText? name).isSome
  | .void | .dynamic => false

/-- A type with a reserved name is written with the word in front. -/
theorem TypeRef.Derives.isTypeWord (h : Derives ts type)
    (hvalid : ∀ t ∈ ts, t.lexeme.Valid) (hname : type.hasReservedName = true) :
    ∀ t, ts.head? = some t → t.lexeme.isTypeWord = true := by
  have hclass {name full : String} {span : Span} {us rest : List Token}
      (hdotted : Dotted name us full)
      (hvalid : ∀ t ∈ ⟨.identifier name, span⟩ :: rest, t.lexeme.Valid) :
      (Keyword.ofText? full).isSome = false := by
    have hfirst : Token.IsName name := hvalid ⟨.identifier name, span⟩ (by simp)
    rw [hdotted.ofText? hfirst.2]
    rfl
  cases h with
  | primitive span hword hdims =>
    rintro t ⟨⟩
    exact Option.isSome_iff_exists.2 ⟨_, hword⟩
  | plain span hdotted | diamond span _ _ hdotted | generic span _ _ hdotted =>
    rw [hasReservedName, hclass hdotted hvalid] at hname
    cases hname

namespace Expr

/-- The leftmost operand of a chain of binary operators. -/
def leftmost : Expr → Expr
  | binary _ _ left _ => leftmost left
  | e => e

/-- Whether the leftmost operand is a type test does not depend on spans. -/
theorem isTypeTest_leftmost_mapSpans (f : Span → Span) (e : Expr) :
    (e.mapSpans f).leftmost.isTypeTest = e.leftmost.isTypeTest := by
  induction e using inductParts with
  | h e ih =>
    cases e with
    | binary s op left right => exact ih left (by simp [children])
    | _ => rfl

/-- A cast before the tokens of an expression is the leading cast of what they are together. -/
theorem Derives.exists_leadingCast (htype : TypeRef.Derives ts type) (h : Derives us e)
    (hlevel : 3 ≤ e.level) (hleft : e.leftmost.isTypeTest = false) (s₁ s₂ : Span)
    (hstart : ∀ t u, ts.head? = some t → us.head? = some u →
      t.lexeme.isTypeWord = true ∨ u.lexeme.startsOperand = true) :
    ∃ d e', Derives (⟨.punctuation '(', s₁⟩ :: (ts ++ ⟨.punctuation ')', s₂⟩ :: us)) d ∧
      d.leadingCast? = some (type, e') ∧ e'.eraseSpans = e.eraseSpans ∧
      min e.level 13 ≤ d.level ∧ d.isTypeTest = false := by
  induction e using inductParts generalizing us with
  | h e ih =>
    -- An operand takes the cast itself; a binary operator passes it on to its left operand.
    by_cases hoperand : 13 ≤ e.level
    · exact ⟨_, e, .cast rfl htype h hoperand hstart, rfl, rfl, Nat.min_le_right _ _, rfl⟩
    · cases e with
      | binary s op left right =>
        cases h with
        | @binary ls os rs _ _ _ _ hvs hop hl hr hlow hright hless =>
          subst hvs
          -- the cast is that of the left operand, which has the same leftmost one
          have hop3 : 3 ≤ op.level := hlevel
          have hfirst : ∀ t u, ts.head? = some t → ls.head? = some u →
              t.lexeme.isTypeWord = true ∨ u.lexeme.startsOperand = true := by
            intro t u ht hu
            obtain ⟨v, vs, rfl, -⟩ := hl.first
            exact hstart t u ht hu
          obtain ⟨d, l, hd, hcast, herase, hmin, htest⟩ :=
            ih left (by simp [children]) hl (Nat.le_trans hop3 hlow) hleft hfirst
          have hop13 : op.level ≤ 12 := by cases op <;> decide
          have htokens : ⟨.punctuation '(', s₁⟩ :: (ts ++ ⟨.punctuation ')', s₂⟩ :: (ls ++ (os ++ rs)))
              = (⟨.punctuation '(', s₁⟩ :: (ts ++ ⟨.punctuation ')', s₂⟩ :: ls)) ++ (os ++ rs) := by
            simp
          have hlevels : op.level ≤ d.level := by omega
          obtain ⟨span, hbinary⟩ : ∃ span, Derives (⟨.punctuation '(', s₁⟩ ::
              (ts ++ ⟨.punctuation ')', s₂⟩ :: (ls ++ (os ++ rs)))) (Expr.binary span op d right) :=
            ⟨_, .binary htokens hop hd hr hlevels hright (by simp [htest])⟩
          refine ⟨_, Expr.binary span op l right, hbinary, ?_, ?_, Nat.min_le_left _ _, rfl⟩
          · rw [leadingCast?, hcast]
            rfl
          · rw [Expr.eraseSpans, Expr.eraseSpans, herase]
      | instanceOf => cases hleft
      | unary s op =>
        rw [level] at hoperand
        split at hoperand <;> exact absurd (by decide) hoperand
      | conditional | assign => exact absurd hlevel (by simp [level])
      | _ => exact absurd (by simp [level]) hoperand

/-- Taking the leading cast undoes writing one. The cast is that of a type with a reserved name or is
written before a token that may start an operand, and the expression is a chain of binary operators,
or an operand of one, that does not start with a type test. -/
theorem takeLeadingCast_parse (htype : TypeRef.parse typeText = .ok type) (h : parse text = .ok e)
    (hlevel : 3 ≤ e.level) (hleft : e.leftmost.isTypeTest = false)
    (hstart : type.hasReservedName = true ∨
      (Cursor.ofTokens (Token.read text).1).startsOperand = true) :
    ∃ d e', parse ("(" ++ typeText ++ ") " ++ text) = .ok d ∧
      d.takeLeadingCast = (e', some type) ∧ e'.eraseSpans = e.eraseSpans := by
  obtain ⟨ts, hts, htype⟩ := TypeRef.parse_eq_ok.1 htype
  obtain ⟨us, hus, h⟩ := parse_eq_ok.1 h
  let k := 3 + typeText.utf8ByteSize
  let whole := "(" ++ typeText ++ ") " ++ text
  have hchars : whole.toList = '(' :: (typeText.toList ++ ')' :: ' ' :: text.toList) := by
    simp [whole]
  have hsize : whole.utf8ByteSize = 2 + typeText.utf8ByteSize + Text.byteSize (' ' :: text.toList) ∧
      whole.utf8ByteSize = k + text.utf8ByteSize + 0 := by
    rw [← Text.byteSize_toList, hchars]
    have hone : '('.utf8Size = 1 ∧ ')'.utf8Size = 1 ∧ ' '.utf8Size = 1 := ⟨rfl, rfl, rfl⟩
    simp only [Text.byteSize_cons, Text.byteSize_append, Text.byteSize_toList, hone, k]
    omega
  -- the tokens of the type stand one byte, those of the expression `k` bytes further to the right
  have hbehind := Token.readFrom_append (k := k) hus (Nat.le_of_eq (Text.byteSize_toList text))
    Text.closes_nil
  rw [Text.byteSize_nil, ← hsize.2, Token.readFrom_nil, List.append_nil, List.append_nil] at hbehind
  have hblank : Token.readFrom whole.utf8ByteSize (' ' :: text.toList) = _ :=
    (Token.readFrom_blank (by decide)).trans hbehind
  have htokens := Token.readFrom_parentheses _ _ hts hsize.1
  rw [hblank, ← hchars] at htokens
  have hword : ∀ t u, (ts.map (·.shift 1)).head? = some t → (us.map (·.shift k)).head? = some u →
      t.lexeme.isTypeWord = true ∨ u.lexeme.startsOperand = true := by
    intro t u ht hu
    rw [List.head?_map, Option.map_eq_some_iff] at ht hu
    obtain ⟨t, ht, rfl⟩ := ht
    obtain ⟨u, hu, rfl⟩ := hu
    refine hstart.imp (fun hname => ?_) fun hoperand => ?_
    · exact htype.isTypeWord (Token.valid_of_read hts) hname t ht
    · rw [Token.read, hus, Cursor.startsOperand_eq, Cursor.next?, Cursor.ofTokens, hu] at hoperand
      exact hoperand
  obtain ⟨d, e', hd, hcast, herase, -⟩ := Derives.exists_leadingCast (htype.shift 1) (h.shift k)
    (by simpa [shift] using hlevel) (by simpa [shift, isTypeTest_leftmost_mapSpans] using hleft)
    _ _ hword
  refine ⟨d, e', parse_eq_ok.2 ⟨_, htokens, hd⟩, ?_, herase.trans (eraseSpans_shift k e)⟩
  rw [takeLeadingCast, hcast]

/-- A cast to a class before two operators of different levels. -/
theorem takeLeadingCast_parse_of_sum :
    let e := binary ⟨0, 5⟩ .plus (binary ⟨0, 3⟩ .multiply (name ⟨0, 1⟩ "a") (name ⟨2, 3⟩ "b"))
      (name ⟨4, 5⟩ "c")
    parse "a*b+c" = .ok e ∧ ∃ d e', parse "(List<int[]>) a*b+c" = .ok d ∧
      d.takeLeadingCast = (e', some (.named "List" [.named "int" [] 1] 0)) ∧
        e'.eraseSpans = e.eraseSpans := by
  have htype : TypeRef.parse "List<int[]>" = .ok (.named "List" [.named "int" [] 1] 0) := by
    decide +kernel
  have hread : Token.read "a*b+c" = ([⟨.identifier "a", ⟨0, 1⟩⟩, ⟨.sign .star, ⟨1, 2⟩⟩,
      ⟨.identifier "b", ⟨2, 3⟩⟩, ⟨.sign .plus, ⟨3, 4⟩⟩, ⟨.identifier "c", ⟨4, 5⟩⟩], none) := by
    decide +kernel
  have hparse : parse "a*b+c" = .ok (binary ⟨0, 5⟩ .plus
      (binary ⟨0, 3⟩ .multiply (name ⟨0, 1⟩ "a") (name ⟨2, 3⟩ "b")) (name ⟨4, 5⟩ "c")) := by
    rw [parse_of_read hread]
    with_unfolding_all rfl
  exact ⟨hparse, takeLeadingCast_parse htype hparse (by decide) rfl (.inr (by rw [hread]; rfl))⟩

end Expr

end Stencil
