import Stencil.Proofs.Expr.Level
import Stencil.Proofs.TypeRef.Derivation

/-!
# The grammar of expressions

The declarative counterpart of the reader of expressions: `Derives` says which tokens are which tree,
one constructor for each way to write a node. A level for each expression takes the place of the
functions of the reader, one of which reads each level, and three conditions take the place of its
decisions: parentheses do not start with a word for a type, a cast to a class has an operand that can
follow it, and the type of a type test before a `<` does not end in a name.

The relation is what the two directions of the correctness of the reader are stated with
(Proofs/Expr/Soundness, Proofs/Expr/Completeness), and the printer is compared with it, not with the
reader. What is asked of it most is here: an expression starts with one of a few lexemes
(`Derives.first`), an expression of a high level with no sign but that of a prefix operator
(`Derives.first_of_level`), and a chain of names is also a dotted name (`Derives.dotted`), which a
class literal is read from.

**What it does not establish.** The relation may have several trees for the same tokens; that it has
one only follows from the correctness of the reader and is not shown here.
-/

namespace Stencil

/-- The signs that the operator is written as. -/
def BinaryOp.signs : BinaryOp → List Sign
  | or => [.barBar]
  | and => [.ampAmp]
  | bitOr => [.bar]
  | xor => [.caret]
  | bitAnd => [.amp]
  | equal => [.equalEqual]
  | notEqual => [.bangEqual]
  | less => [.less]
  | greater => [.greater]
  | lessEqual => [.lessEqual]
  | greaterEqual => [.greaterEqual]
  | leftShift => [.shiftLeft]
  | rightShift => [.greater, .greater]
  | unsignedRightShift => [.greater, .greater, .greater]
  | plus => [.plus]
  | minus => [.minus]
  | multiply => [.star]
  | divide => [.slash]
  | remainder => [.percent]

/-- The signs that the operator is written as. -/
def AssignOp.signs : AssignOp → List Sign
  | assign => [.assign]
  | plus => [.plusAssign]
  | minus => [.minusAssign]
  | multiply => [.starAssign]
  | divide => [.slashAssign]
  | remainder => [.percentAssign]
  | bitAnd => [.ampAssign]
  | bitOr => [.barAssign]
  | xor => [.caretAssign]
  | leftShift => [.shiftLeftAssign]
  | rightShift => [.greater, .greaterEqual]
  | unsignedRightShift => [.greater, .greater, .greaterEqual]

/-- The tokens are the signs, one right behind the other. -/
def Token.AreSigns : List Sign → List Token → Prop
  | [], [] => True
  | s :: ss, t :: ts =>
    t.lexeme = .sign s ∧ (∀ u, ts.head? = some u → t.touches u = true) ∧ AreSigns ss ts
  | _, _ => False

/-- The span from the first token to the last. -/
def Token.cover (ts : List Token) : Span :=
  ⟨(ts.head?.map (·.span.start)).getD 0, Token.endOf 0 ts⟩

/-- Whether the lexeme may start the operand of a cast to a class type. -/
def Lexeme.startsOperand : Lexeme → Bool
  | identifier _ | number _ | string _ | character _ => true
  | keyword k => [.this, .newObject, .trueValue, .falseValue, .nullValue, .super].contains k
  | punctuation p => p == '('
  | sign s => s == .bang || s == .tilde

/-- Whether the lexeme is a reserved word that names a type. -/
def Lexeme.isTypeWord : Lexeme → Bool
  | keyword k => k.typeName?.isSome
  | _ => false

namespace Expr

/-- The tokens are the arguments of a call in their parentheses. -/
def AreArguments (ts : List Token) (parts : List (List Token × Expr)) : Prop :=
  ∃ us s₁ s₂, Joined us (parts.map (·.1)) ∧
    ts = ⟨.punctuation '(', s₁⟩ :: (us ++ [⟨.punctuation ')', s₂⟩])

/-- The tokens are the expression, each node with the span of its tokens. -/
inductive Derives : List Token → Expr → Prop
  | number (s : String) (span : Span) :
      Derives [⟨.number s, span⟩] (.literal span (.ofNumber s) s)
  | string (v : String) (span : Span) : Derives [⟨.string v, span⟩] (.literal span .string v)
  | character (v : Char) (span : Span) :
      Derives [⟨.character v, span⟩] (.literal span .character (String.singleton v))
  | boolean {word : Keyword} (span : Span) (h : word = .trueValue ∨ word = .falseValue) :
      Derives [⟨.keyword word, span⟩] (.literal span .boolean word.text)
  | null (span : Span) :
      Derives [⟨.keyword .nullValue, span⟩] (.literal span .null Keyword.nullValue.text)
  | name (n : String) (span : Span) : Derives [⟨.identifier n, span⟩] (.name span n)
  | this (span : Span) : Derives [⟨.keyword .this, span⟩] (.this span)
  | field {ts vs : List Token} {scope : Expr} {n : String} {s₁ s₂ : Span}
      (hvs : vs = ts ++ [⟨.punctuation '.', s₁⟩, ⟨.identifier n, s₂⟩]) (h : Derives ts scope)
      (hscope : 15 ≤ scope.level) : Derives vs (.field (Token.cover vs) scope n)
  | call {us vs : List Token} {n : String} {s : Span} {parts : List (List Token × Expr)}
      (hvs : vs = ⟨.identifier n, s⟩ :: us) (hargs : AreArguments us parts)
      (hparts : ∀ p ∈ parts, Derives p.1 p.2) :
      Derives vs (.call (Token.cover vs) n (parts.map (·.2)))
  | method {ts us vs : List Token} {scope : Expr} {n : String} {s₁ s₂ : Span}
      {parts : List (List Token × Expr)}
      (hvs : vs = ts ++ ⟨.punctuation '.', s₁⟩ :: ⟨.identifier n, s₂⟩ :: us)
      (h : Derives ts scope) (hscope : 15 ≤ scope.level) (hargs : AreArguments us parts)
      (hparts : ∀ p ∈ parts, Derives p.1 p.2) :
      Derives vs (.method (Token.cover vs) scope n (parts.map (·.2)))
  | index {ts us vs : List Token} {array position : Expr} {s₁ s₂ : Span}
      (hvs : vs = ts ++ ⟨.punctuation '[', s₁⟩ :: (us ++ [⟨.punctuation ']', s₂⟩]))
      (harray : Derives ts array) (hlevel : 15 ≤ array.level) (hposition : Derives us position) :
      Derives vs (.index (Token.cover vs) array position)
  | creation {ts us vs : List Token} {type : TypeRef} {s : Span} {parts : List (List Token × Expr)}
      (hvs : vs = ⟨.keyword .newObject, s⟩ :: (ts ++ us)) (htype : TypeRef.DerivesClass ts type)
      (hargs : AreArguments us parts) (hparts : ∀ p ∈ parts, Derives p.1 p.2) :
      Derives vs (.creation (Token.cover vs) type (parts.map (·.2)))
  | classLiteral {ts ds vs : List Token} {n full : String} {dims : Nat} {s s₁ s₂ : Span}
      (hvs : vs = ⟨.identifier n, s⟩ ::
        (ts ++ (ds ++ [⟨.punctuation '.', s₁⟩, ⟨.keyword .classOf, s₂⟩])))
      (hname : TypeRef.Dotted n ts full) (hdims : TypeRef.Dims ds dims) :
      Derives vs (.classLiteral (Token.cover vs) (.named full [] dims))
  | primitiveClass {ds vs : List Token} {word : Keyword} {n : String} {dims : Nat} {s s₁ s₂ : Span}
      (hvs : vs = ⟨.keyword word, s⟩ :: (ds ++ [⟨.punctuation '.', s₁⟩, ⟨.keyword .classOf, s₂⟩]))
      (hword : word.typeName? = some n) (hdims : TypeRef.Dims ds dims) :
      Derives vs (.classLiteral (Token.cover vs) (.named n [] dims))
  | enclosed {ts vs : List Token} {inner : Expr} {s₁ s₂ : Span}
      (hvs : vs = ⟨.punctuation '(', s₁⟩ :: (ts ++ [⟨.punctuation ')', s₂⟩]))
      (h : Derives ts inner) (hword : ∀ t, ts.head? = some t → t.lexeme.isTypeWord = false) :
      Derives vs (.enclosed (Token.cover vs) inner)
  | behind {ts vs : List Token} {op : UnaryOp} {operand : Expr} {s : Span}
      (hvs : vs = ts ++ [⟨.sign op.sign, s⟩]) (hop : op.isBehind = true) (h : Derives ts operand)
      (hoperand : 14 ≤ operand.level) : Derives vs (.unary (Token.cover vs) op operand)
  | before {ts vs : List Token} {op : UnaryOp} {operand : Expr} {s : Span}
      (hvs : vs = ⟨.sign op.sign, s⟩ :: ts) (hop : op.isBehind = false) (h : Derives ts operand)
      (hoperand : 13 ≤ operand.level) : Derives vs (.unary (Token.cover vs) op operand)
  | cast {ts us vs : List Token} {type : TypeRef} {operand : Expr} {s₁ s₂ : Span}
      (hvs : vs = ⟨.punctuation '(', s₁⟩ :: (ts ++ ⟨.punctuation ')', s₂⟩ :: us))
      (htype : TypeRef.Derives ts type) (h : Derives us operand) (hoperand : 13 ≤ operand.level)
      (hstart : ∀ t u, ts.head? = some t → us.head? = some u →
        t.lexeme.isTypeWord = true ∨ u.lexeme.startsOperand = true) :
      Derives vs (.cast (Token.cover vs) type operand)
  | instanceOf {ts us vs : List Token} {type : TypeRef} {operand : Expr} {s : Span}
      (hvs : vs = ts ++ ⟨.keyword .instanceOf, s⟩ :: us) (h : Derives ts operand)
      (hoperand : 9 ≤ operand.level) (htype : TypeRef.Derives us type) :
      Derives vs (.instanceOf (Token.cover vs) operand type)
  | binary {ls os rs vs : List Token} {op : BinaryOp} {left right : Expr}
      (hvs : vs = ls ++ (os ++ rs)) (hop : Token.AreSigns op.signs os) (hl : Derives ls left)
      (hr : Derives rs right) (hleft : op.level ≤ left.level) (hright : op.level < right.level)
      (hless : op = .less → left.isTypeTest = true → ¬ EndsInName ls) :
      Derives vs (.binary (Token.cover vs) op left right)
  | conditional {cs ts fs vs : List Token} {condition whenTrue whenFalse : Expr} {s₁ s₂ : Span}
      (hvs : vs = cs ++ ⟨.sign .question, s₁⟩ :: (ts ++ ⟨.punctuation ':', s₂⟩ :: fs))
      (hc : Derives cs condition) (ht : Derives ts whenTrue) (hf : Derives fs whenFalse)
      (hcondition : 3 ≤ condition.level) (hfalse : 2 ≤ whenFalse.level) :
      Derives vs (.conditional (Token.cover vs) condition whenTrue whenFalse)
  | assign {ts os us vs : List Token} {op : AssignOp} {target value : Expr}
      (hvs : vs = ts ++ (os ++ us)) (hop : Token.AreSigns op.signs os) (ht : Derives ts target)
      (hv : Derives us value) (htarget : Grammar.isTarget target = true) :
      Derives vs (.assign (Token.cover vs) op target value)

/-- Whether an expression may start with the lexeme. -/
def startsWith : Lexeme → Bool
  | .identifier _ | .number _ | .string _ | .character _ => true
  | .keyword k => k != .instanceOf && k != .super && k != .classOf
  | .punctuation p => p == '('
  | .sign s => (Grammar.prefixOp? s).isSome

variable {ts us vs : List Token} {e : Expr}

/-- An expression starts with a lexeme that may start one. -/
theorem Derives.first (h : Derives ts e) :
    ∃ t us, ts = t :: us ∧ startsWith t.lexeme = true := by
  have hfront {ts : List Token} (us : List Token)
      (h : ∃ t vs, ts = t :: vs ∧ startsWith t.lexeme = true) :
      ∃ t vs, ts ++ us = t :: vs ∧ startsWith t.lexeme = true := by
    obtain ⟨t, vs, rfl, ht⟩ := h
    exact ⟨t, vs ++ us, rfl, ht⟩
  -- The nodes that start with an expression start as that does; the others start with a token of
  -- their own.
  induction h with
  | number | string | character | null | name | this => exact ⟨_, _, rfl, rfl⟩
  | boolean span h => rcases h with rfl | rfl <;> exact ⟨_, _, rfl, rfl⟩
  | field hvs _ _ ih | method hvs _ _ _ _ ih | index hvs _ _ _ ih | behind hvs _ _ _ ih
  | instanceOf hvs _ _ _ ih | binary hvs _ _ _ _ _ _ ih | conditional hvs _ _ _ _ _ ih
  | assign hvs _ _ _ _ ih =>
    subst hvs
    exact hfront _ ih
  | call hvs | creation hvs | classLiteral hvs | enclosed hvs | cast hvs =>
    subst hvs
    exact ⟨_, _, rfl, rfl⟩
  | @primitiveClass _ _ word _ _ _ _ _ hvs hword =>
    subst hvs
    refine ⟨_, _, rfl, ?_⟩
    cases word with
    | primitive | voidType => rfl
    | _ => cases hword
  | @before _ _ op _ _ hvs hop =>
    subst hvs
    refine ⟨_, _, rfl, ?_⟩
    cases op with
    | postIncrement | postDecrement => cases hop
    | _ => rfl

/-- A sign stands in front of an operator before its operand only. -/
theorem Derives.first_of_level (h : Derives ts e) (hlevel : 14 ≤ e.level) :
    ∀ t, ts.head? = some t → ∀ s, t.lexeme ≠ .sign s := by
  have hfront {ts us : List Token} {d : Expr} (h : Derives ts d)
      (hts : ∀ t, ts.head? = some t → ∀ s, t.lexeme ≠ .sign s) :
      ∀ t, (ts ++ us).head? = some t → ∀ s, t.lexeme ≠ .sign s := by
    obtain ⟨t, vs, rfl, -⟩ := h.first
    exact hts
  induction h with
  | number | string | character | boolean | null | name | this =>
    rintro t ⟨⟩
    simp
  | call hvs | creation hvs | classLiteral hvs | primitiveClass hvs | enclosed hvs =>
    subst hvs
    rintro t ⟨⟩
    simp
  | field hvs h hscope ih | method hvs h hscope _ _ ih | index hvs h hscope _ ih =>
    subst hvs
    exact hfront h (ih (Nat.le_of_succ_le hscope))
  | behind hvs _ h hoperand ih =>
    subst hvs
    exact hfront h (ih hoperand)
  | before hvs hop =>
    rw [level, hop] at hlevel
    exact absurd hlevel (by decide)
  | cast | instanceOf | conditional | assign => exact absurd hlevel (by simp [level])
  | @binary _ _ _ _ op => cases op <;> exact absurd hlevel (by simp [level, BinaryOp.level])

/-- An expression has a token. -/
theorem Derives.ne_nil (h : Derives ts e) : ts ≠ [] := by
  obtain ⟨t, us, rfl, -⟩ := h.first
  exact List.cons_ne_nil t us

end Expr

/-- What was read since a cursor spans the tokens between. -/
theorem Cursor.Takes.spanFrom_eq {c c' : Cursor} {ts : List Token} (h : c.Takes ts c')
    (hne : ts ≠ []) : c'.spanFrom c.start = Token.cover ts := by
  obtain ⟨t, us, rfl⟩ := List.exists_cons_of_ne_nil hne
  rw [Cursor.spanFrom, h.start, h.lastEnd, Token.cover, Token.endOf, Token.endOf,
    List.getLast?_cons]
  rfl

namespace TypeRef

/-- A name behind a full stop makes a dotted name longer. -/
theorem Dotted.snoc {name full part : String} {ts : List Token} (h : Dotted name ts full)
    (s₁ s₂ : Span) : Dotted name (ts ++ [⟨.punctuation '.', s₁⟩, ⟨.identifier part, s₂⟩])
      (full ++ "." ++ part) := by
  induction h with
  | stop name => exact .dot s₁ s₂ (.stop _)
  | dot r₁ r₂ _ ih => exact .dot r₁ r₂ ih

end TypeRef

/-- A chain that spells a name has the tokens of a dotted name. -/
theorem Expr.Derives.dotted {ts : List Token} {e : Expr} {full : String} (h : Derives ts e)
    (hname : e.qualifiedName? = some full) :
    ∃ n s us, ts = ⟨.identifier n, s⟩ :: us ∧ TypeRef.Dotted n us full := by
  induction h generalizing full with
  | name n span =>
    obtain rfl := Option.some.inj hname
    exact ⟨n, span, [], rfl, .stop n⟩
  | field hvs h _ ih =>
    obtain ⟨m, hm, rfl⟩ := Option.map_eq_some_iff.1 hname
    obtain ⟨n, s, us, rfl, hdotted⟩ := ih hm
    exact ⟨n, s, _, hvs, hdotted.snoc _ _⟩
  | _ => cases hname

end Stencil
