import Stencil.Proofs.Expr.Written
import Stencil.Proofs.Expr.RoundTrip

/-!
# The leaves of an expression

**The law** (`parse_sound`): of every expression that is read, every node respects the levels of the
grammar, and the tokens of the text are the leaves of the tree from left to right. Only empty angle
brackets leave nothing in the tree, and they stand behind the name of a class that is written without
type arguments.

`yield` lists the leaves of a tree: names, literals, signs, brackets and commas, in the order of the
text. A leaf is marked if brackets may stand behind it (`Leaf`), and `Yields` says that lexemes are
the leaves with brackets behind some of the marked ones. So the whole text is accounted for, without
looking at how it was read. `Derives.yields` goes by induction on the derivation, for types and for
expressions.

The levels are told node by node (`Derives.respectsLevels`): operators with two operands lean to the
left, nothing looser than a prefix stands behind one. Together with the leaves this is what the
precedence of operators means: where the tokens could be grouped in several ways, the tree is the one
that respects the levels.

**What it does not establish.** Which texts are read is told by the grammar; nothing is said of
errors.
-/

namespace Stencil

open Written (space)

/-- A lexeme of a tree, and whether it ends the name of a class without type arguments. -/
structure Leaf where
  lexeme : Lexeme
  endsClass : Bool
  deriving DecidableEq, Repr

namespace Leaf

/-- The leaves of lexemes that nothing can stand behind unseen. -/
def plain (ks : List Lexeme) : List Leaf := ks.map (⟨·, false⟩)

@[simp] theorem plain_nil : plain [] = [] := rfl

/-- A leaf behind which no brackets may stand. -/
@[simp] theorem plain_cons (k : Lexeme) (ks : List Lexeme) : plain (k :: ks) = ⟨k, false⟩ :: plain ks :=
  rfl

/-- The leaves of the lexemes of a class name. -/
def className : List Lexeme → List Leaf
  | [] => []
  | [k] => [⟨k, true⟩]
  | k :: ks => ⟨k, false⟩ :: className ks

/-- The lists of leaves with a comma between two neighbours. -/
def commas : List (List Leaf) → List Leaf
  | [] => []
  | [ls] => ls
  | ls :: lss => ls ++ ⟨.punctuation ',', false⟩ :: commas lss

/-- The lexemes are those of the leaves, and empty angle brackets behind the names of classes. -/
inductive Yields : List Leaf → List Lexeme → Prop
  | nil : Yields [] []
  | leaf {ls : List Leaf} {ks : List Lexeme} (l : Leaf) (h : Yields ls ks) :
      Yields (l :: ls) (l.lexeme :: ks)
  | brackets {ls : List Leaf} {ks : List Lexeme} (name : String) (h : Yields ls ks) :
      Yields (⟨.identifier name, true⟩ :: ls)
        (.identifier name :: .sign .less :: .sign .greater :: ks)

namespace Yields

variable {ls ls' : List Leaf} {ks ks' : List Lexeme}

/-- Leaves of two parts. -/
theorem append (h : Yields ls ks) (h' : Yields ls' ks') : Yields (ls ++ ls') (ks ++ ks') := by
  induction h with
  | nil => exact h'
  | leaf l _ ih => exact .leaf l ih
  | brackets name _ ih => exact .brackets name ih

/-- Lexemes that nothing can stand behind unseen are their leaves. -/
theorem plain (ks : List Lexeme) : Yields (Leaf.plain ks) ks := by
  induction ks with
  | nil => exact .nil
  | cons k ks ih => exact .leaf ⟨k, false⟩ ih

/-- The name of a class yields its lexemes, without brackets behind it. -/
theorem className (ks : List Lexeme) : Yields (className ks) ks := by
  induction ks with
  | nil => exact .nil
  | cons k ks ih =>
    cases ks with
    | nil => exact .leaf ⟨k, true⟩ .nil
    | cons k' ks => exact .leaf ⟨k, false⟩ ih

/-- Behind a class name that ends in an identifier there may be empty angle brackets. -/
theorem diamond {name : String} (h : ks.getLast? = some (.identifier name)) :
    Yields (Leaf.className ks) (ks ++ [.sign .less, .sign .greater]) := by
  induction ks with
  | nil => cases h
  | cons k ks ih =>
    cases ks with
    | nil =>
      obtain rfl := Option.some.inj h
      exact .brackets name .nil
    | cons k' ks =>
      rw [List.getLast?_cons_cons] at h
      exact .leaf ⟨k, false⟩ (ih h)

/-- Leaves of parts with commas between them. -/
theorem joined {α : Type} {leaves : α → List Leaf} {us : List Token}
    {parts : List (List Token × α)} (h : Joined us (parts.map (·.1)))
    (hparts : ∀ p ∈ parts, Yields (leaves p.2) (p.1.map (·.lexeme))) :
    Yields (commas ((parts.map (·.2)).map leaves)) (us.map (·.lexeme)) := by
  induction parts generalizing us with
  | nil =>
    cases h
    exact .nil
  | cons p parts ih =>
    have hp := hparts p (by simp)
    cases parts with
    | nil =>
      cases h
      exact hp
    | cons r parts =>
      cases h with
      | more span h =>
        have hrest := ih h fun p hp => hparts p (List.mem_cons_of_mem _ hp)
        rw [List.map_append, List.map_cons]
        exact hp.append (.leaf _ hrest)

end Yields

end Leaf

open Leaf (Yields plain className commas)

namespace TypeRef

mutual

/-- The leaves of a type. -/
def yield : TypeRef → List Leaf
  | .named name [] dims =>
    className ((nameWritten name).map (·.lexeme)) ++ plain ((dimsWritten dims).map (·.lexeme))
  | .named name args dims =>
    plain ((nameWritten name).map (·.lexeme)) ++ ⟨.sign .less, false⟩ ::
      (commas (yieldList args) ++ ⟨.sign .greater, false⟩ ::
        plain ((dimsWritten dims).map (·.lexeme)))
  | t => plain (t.written.map (·.lexeme))

/-- The leaves of each type of a list. -/
def yieldList : List TypeRef → List (List Leaf)
  | [] => []
  | t :: ts => t.yield :: yieldList ts

end

/-- The leaves of several types. -/
theorem yieldList_eq (ts : List TypeRef) : yieldList ts = ts.map yield := by
  induction ts with
  | nil => rfl
  | cons t ts ih => rw [yieldList, ih, List.map_cons]

/-- The leaves of a type with arguments. -/
theorem yield_generic {name : String} {args : List TypeRef} {dims : Nat} (h : args ≠ []) :
    (named name args dims).yield = plain ((nameWritten name).map (·.lexeme)) ++
      ⟨.sign .less, false⟩ :: (commas (args.map yield) ++ ⟨.sign .greater, false⟩ ::
        plain ((dimsWritten dims).map (·.lexeme))) := by
  rw [yield, yieldList_eq]
  exact h

/-- The tokens of a type are its leaves. -/
theorem Derives.yields {ts : List Token} {t : TypeRef} (h : Derives ts t)
    (hvalid : ∀ token ∈ ts, token.lexeme.Valid) : Yields t.yield (ts.map (·.lexeme)) := by
  induction h with
  | @primitive word name ds dims span hword hdims =>
    rw [yield, nameWritten_of_typeName? hword, hdims.dimsWritten_eq, lexemes_unspaced]
    exact .leaf _ (.plain _)
  | @plain name full ts ds dims span hname hdims =>
    have hfull := hname.nameWritten_full span (hvalid _ (by simp)) fun t ht => hvalid t (by simp [ht])
    rw [yield, hfull, hdims.dimsWritten_eq, lexemes_unspaced, lexemes_unspaced, ← List.cons_append,
      List.map_append]
    exact (Yields.className _).append (.plain _)
  | @diamond name full ts ds dims span s₁ s₂ hname hdims =>
    have hfull := hname.nameWritten_full span (hvalid _ (by simp)) fun t ht => hvalid t (by simp [ht])
    obtain ⟨last, hlast⟩ := hname.endsInName (u := ⟨.identifier name, span⟩) ⟨name, rfl⟩
    rw [← List.getLast?_map] at hlast
    rw [yield, hfull, hdims.dimsWritten_eq, lexemes_unspaced, lexemes_unspaced]
    simpa using (Yields.diamond hlast).append (.plain (ds.map (·.lexeme)))
  | @generic name full ts us ds parts dims span s₁ s₂ hname hne hjoined hparts hdims ih =>
    have hfull := hname.nameWritten_full span (hvalid _ (by simp)) fun t ht => hvalid t (by simp [ht])
    have hargs : ∀ p ∈ parts, Yields p.2.yield (p.1.map (·.lexeme)) := by
      intro p hp
      by_cases hwild : IsWildcard p
      · obtain ⟨ht, s, hts⟩ := hwild
        rw [ht, hts]
        exact .leaf ⟨.sign .question, true⟩ .nil
      · have hsub := hjoined.subset (List.mem_map_of_mem hp)
        exact ih p hp hwild fun t ht => hvalid t (by simp [hsub ht])
    have htail := (Yields.joined hjoined hargs).append
      (.leaf ⟨.sign .greater, false⟩ (.plain (ds.map (·.lexeme))))
    rw [yield_generic (by simpa using hne), hfull, hdims.dimsWritten_eq, lexemes_unspaced,
      lexemes_unspaced]
    simpa using (Yields.plain ((⟨.identifier name, span⟩ :: ts).map (·.lexeme))).append
      (.leaf ⟨.sign .less, false⟩ htail)

end TypeRef

namespace Expr

/-- The leaves of arguments in their parentheses. -/
def argsYield (args : List (List Leaf)) : List Leaf :=
  ⟨.punctuation '(', false⟩ :: (commas args ++ [⟨.punctuation ')', false⟩])

mutual

/-- The leaves of an expression. The operators that are read from several signs have a leaf for each of
them. The type of a class literal has no empty angle brackets behind it. -/
def yield : Expr → List Leaf
  | literal _ kind value => plain [literalLexeme kind value]
  | name _ n => plain [.identifier n]
  | this _ => plain [.keyword .this]
  | field _ scope n => scope.yield ++ plain [.punctuation '.', .identifier n]
  | call _ n args => plain [.identifier n] ++ argsYield (yieldList args)
  | method _ scope n args =>
    scope.yield ++ (plain [.punctuation '.', .identifier n] ++ argsYield (yieldList args))
  | index _ array position =>
    array.yield ++ (plain [.punctuation '['] ++ (position.yield ++ plain [.punctuation ']']))
  | creation _ type args => plain [.keyword .newObject] ++ (type.yield ++ argsYield (yieldList args))
  | cast _ type operand =>
    plain [.punctuation '('] ++ (type.yield ++ (plain [.punctuation ')'] ++ operand.yield))
  | instanceOf _ operand type => operand.yield ++ (plain [.keyword .instanceOf] ++ type.yield)
  | classLiteral _ type =>
    plain (type.written.map (·.lexeme) ++ [.punctuation '.', .keyword .classOf])
  | unary _ op operand =>
    if op.isBehind then operand.yield ++ plain [.sign op.sign]
    else plain [.sign op.sign] ++ operand.yield
  | binary _ op left right => left.yield ++ (plain (op.signs.map .sign) ++ right.yield)
  | conditional _ condition whenTrue whenFalse =>
    condition.yield ++ (plain [.sign .question] ++
      (whenTrue.yield ++ (plain [.punctuation ':'] ++ whenFalse.yield)))
  | assign _ op target value => target.yield ++ (plain (op.signs.map .sign) ++ value.yield)
  | enclosed _ inner => plain [.punctuation '('] ++ (inner.yield ++ plain [.punctuation ')'])

/-- The leaves of each expression of a list. -/
def yieldList : List Expr → List (List Leaf)
  | [] => []
  | e :: es => e.yield :: yieldList es

end

/-- The leaves of several expressions. -/
theorem yieldList_eq (es : List Expr) : yieldList es = es.map yield := by
  induction es with
  | nil => rfl
  | cons e es ih => rw [yieldList, ih, List.map_cons]

/-- The leaves of arguments in their parentheses. -/
theorem AreArguments.yields {us : List Token} {parts : List (List Token × Expr)}
    (h : AreArguments us parts) (hparts : ∀ p ∈ parts, Yields p.2.yield (p.1.map (·.lexeme))) :
    Yields (argsYield (yieldList (parts.map (·.2)))) (us.map (·.lexeme)) := by
  obtain ⟨vs, s₁, s₂, hjoined, rfl⟩ := h
  rw [argsYield, yieldList_eq, List.map_cons, List.map_append]
  exact .leaf _ ((Yields.joined hjoined hparts).append (.plain [.punctuation ')']))

/-- The lexemes of an operator are its signs. -/
theorem lexemes_of_areSigns {ss : List Sign} {os : List Token} (h : Token.AreSigns ss os) :
    os.map (·.lexeme) = ss.map .sign := by
  induction ss generalizing os with
  | nil => rw [Token.areSigns_nil.1 h, List.map_nil, List.map_nil]
  | cons s ss ih =>
    obtain ⟨span, ts, rfl, -, h⟩ := Token.areSigns_cons.1 h
    rw [List.map_cons, List.map_cons, ih h]

variable {ts : List Token} {e : Expr}

/-- The tokens of an expression are its leaves. -/
theorem Derives.yields (h : Derives ts e) (hvalid : ∀ t ∈ ts, t.lexeme.Valid) :
    Yields e.yield (ts.map (·.lexeme)) := by
  induction h with
  | number s span =>
    rw [yield, literalLexeme_ofNumber]
    exact .plain _
  | string | name | this => exact .plain _
  | character v span =>
    rw [yield, literalLexeme, String.toList_singleton]
    exact .plain _
  | boolean | null =>
    rw [yield, literalLexeme, wordLexeme_text]
    exact .plain _
  | field hvs _ _ ih =>
    subst hvs
    rw [yield, List.map_append]
    exact (ih fun t ht => hvalid t (by simp [ht])).append (.plain _)
  | call hvs hargs _ ih =>
    subst hvs
    refine .leaf _ (hargs.yields fun p hp => ih p hp fun t ht => ?_)
    exact hvalid t (List.mem_cons_of_mem _ (hargs.subset hp ht))
  | method hvs _ _ hargs _ ih ih' =>
    subst hvs
    rw [yield, List.map_append]
    refine (ih fun t ht => hvalid t (by simp [ht])).append (.leaf _ (.leaf _ ?_))
    exact hargs.yields fun p hp => ih' p hp fun t ht => hvalid t (by simp [hargs.subset hp ht])
  | index hvs _ _ _ ih ih' =>
    subst hvs
    rw [yield, List.map_append, List.map_cons, List.map_append]
    refine (ih fun t ht => hvalid t (by simp [ht])).append (.leaf _ ?_)
    exact (ih' fun t ht => hvalid t (by simp [ht])).append (.plain _)
  | creation hvs htype hargs _ ih =>
    subst hvs
    rw [yield, List.map_cons, List.map_append]
    refine .leaf _ ((htype.derives.yields fun t ht => hvalid t (by simp [ht])).append ?_)
    exact hargs.yields fun p hp => ih p hp fun t ht => hvalid t (by simp [hargs.subset hp ht])
  | @classLiteral ts ds _ n full dims s s₁ s₂ hvs hname hdims =>
    subst hvs
    have hfull := hname.nameWritten_full s (hvalid _ (by simp)) fun t ht => hvalid t (by simp [ht])
    -- The dots of the name are leaves of their own, so the type is compared as a whole.
    have hsame : (TypeRef.named full [] dims).written.map (·.lexeme) ++
        [.punctuation '.', .keyword .classOf] = (⟨.identifier n, s⟩ ::
          (ts ++ (ds ++ [⟨.punctuation '.', s₁⟩, ⟨.keyword .classOf, s₂⟩]))).map (·.lexeme) := by
      simp [TypeRef.written, hfull, hdims.dimsWritten_eq]
    rw [yield, hsame]
    exact .plain _
  | @primitiveClass ds _ word n dims s s₁ s₂ hvs hword hdims =>
    subst hvs
    have hsame : (TypeRef.named n [] dims).written.map (·.lexeme) ++
        [.punctuation '.', .keyword .classOf] = (⟨.keyword word, s⟩ ::
          (ds ++ [⟨.punctuation '.', s₁⟩, ⟨.keyword .classOf, s₂⟩])).map (·.lexeme) := by
      simp [TypeRef.written, TypeRef.nameWritten_of_typeName? hword, hdims.dimsWritten_eq]
    rw [yield, hsame]
    exact .plain _
  | enclosed hvs _ _ ih =>
    subst hvs
    rw [yield, List.map_cons, List.map_append]
    exact .leaf _ ((ih fun t ht => hvalid t (by simp [ht])).append (.plain _))
  | behind hvs hop _ _ ih =>
    subst hvs
    rw [yield, if_pos hop, List.map_append]
    exact (ih fun t ht => hvalid t (by simp [ht])).append (.plain _)
  | before hvs hop _ _ ih =>
    subst hvs
    rw [yield, if_neg (by simp [hop]), List.map_cons]
    exact .leaf _ (ih fun t ht => hvalid t (by simp [ht]))
  | cast hvs htype _ _ _ ih =>
    subst hvs
    rw [yield, List.map_cons, List.map_append, List.map_cons]
    refine .leaf _ ((htype.yields fun t ht => hvalid t (by simp [ht])).append (.leaf _ ?_))
    exact ih fun t ht => hvalid t (by simp [ht])
  | instanceOf hvs _ _ htype ih =>
    subst hvs
    rw [yield, List.map_append, List.map_cons]
    refine (ih fun t ht => hvalid t (by simp [ht])).append (.leaf _ ?_)
    exact htype.yields fun t ht => hvalid t (by simp [ht])
  | binary hvs hop _ _ _ _ _ ih ih' =>
    subst hvs
    rw [yield, List.map_append, List.map_append, lexemes_of_areSigns hop]
    refine (ih fun t ht => hvalid t (by simp [ht])).append ((Yields.plain _).append ?_)
    exact ih' fun t ht => hvalid t (by simp [ht])
  | conditional hvs _ _ _ _ _ ih ih' ih'' =>
    subst hvs
    rw [yield, List.map_append, List.map_cons, List.map_append, List.map_cons]
    refine (ih fun t ht => hvalid t (by simp [ht])).append (.leaf _ ?_)
    refine (ih' fun t ht => hvalid t (by simp [ht])).append (.leaf _ ?_)
    exact ih'' fun t ht => hvalid t (by simp [ht])
  | assign hvs hop _ _ _ ih ih' =>
    subst hvs
    rw [yield, List.map_append, List.map_append, lexemes_of_areSigns hop]
    refine (ih fun t ht => hvalid t (by simp [ht])).append ((Yields.plain _).append ?_)
    exact ih' fun t ht => hvalid t (by simp [ht])

/-! ## What is read -/

/-- Every node of an expression respects the levels of the grammar. -/
theorem Derives.respectsLevels (h : Derives ts e) : e.All RespectsLevels := by
  have hargs {parts : List (List Token × Expr)} (ih : ∀ p ∈ parts, p.2.All RespectsLevels) :
      ∀ d ∈ parts.map (·.2), d.All RespectsLevels := by
    rintro _ hd
    obtain ⟨p, hp, rfl⟩ := List.mem_map.1 hd
    exact ih p hp
  induction h with
  | number | string | character | boolean | null | name | this | classLiteral | primitiveClass =>
    exact ⟨trivial, nofun⟩
  | field _ _ hscope ih => exact ⟨hscope, by simpa [children] using ih⟩
  | call _ _ _ ih | creation _ _ _ _ ih => exact ⟨trivial, hargs ih⟩
  | method _ _ hscope _ _ ih ih' => exact ⟨hscope, List.forall_mem_cons.2 ⟨ih, hargs ih'⟩⟩
  | index _ _ hlevel _ ih ih' => exact ⟨hlevel, by simpa [children] using ⟨ih, ih'⟩⟩
  | enclosed _ _ _ ih => exact ⟨trivial, by simpa [children] using ih⟩
  | behind _ hop _ hoperand ih | before _ hop _ hoperand ih =>
    exact ⟨by simpa [RespectsLevels, hop] using hoperand, by simpa [children] using ih⟩
  | cast _ _ _ hoperand _ ih => exact ⟨hoperand, by simpa [children] using ih⟩
  | instanceOf _ _ hoperand _ ih => exact ⟨hoperand, by simpa [children] using ih⟩
  | binary _ _ _ _ hleft hright _ ih ih' =>
    exact ⟨⟨hleft, hright⟩, by simpa [children] using ⟨ih, ih'⟩⟩
  | conditional _ _ _ _ hcondition hfalse ih ih' ih'' =>
    exact ⟨⟨hcondition, hfalse⟩, by simpa [children] using ⟨ih, ih', ih''⟩⟩
  | assign _ _ _ _ htarget ih ih' => exact ⟨htarget, by simpa [children] using ⟨ih, ih'⟩⟩

/-- The reader of expressions is sound: every node of what it reads respects the levels, and the
tokens of the text are the leaves of the tree. -/
theorem parse_sound {text : String} (h : parse text = .ok e) :
    e.All RespectsLevels ∧
      ∃ ts, Token.readAll text = .ok ts ∧ Yields e.yield (ts.map (·.lexeme)) := by
  obtain ⟨ts, hread, hts⟩ := parse_eq_ok.1 h
  have hall : Token.readAll text = .ok ts := by rw [Token.readAll, Token.read, hread]
  exact ⟨hts.respectsLevels, ts, hall, hts.yields (Token.valid_of_read hread)⟩

set_option maxRecDepth 2000 in
/-- The empty angle brackets are in the text and not in the tree, and the operator is read from two
signs. -/
theorem parse_sound_of_creation :
    let text := "b >>= new A<>()"
    let e := assign ⟨0, 15⟩ .rightShift (name ⟨0, 1⟩ "b") (creation ⟨6, 15⟩ (.named "A" [] 0) [])
    parse text = .ok e ∧ e.All RespectsLevels ∧
      ∃ ts, Token.readAll text = .ok ts ∧ Yields e.yield (ts.map (·.lexeme)) := by
  intro text e
  have hread : Token.read text = ([⟨.identifier "b", ⟨0, 1⟩⟩, ⟨.sign .greater, ⟨2, 3⟩⟩,
      ⟨.sign .greaterEqual, ⟨3, 5⟩⟩, ⟨.keyword .newObject, ⟨6, 9⟩⟩, ⟨.identifier "A", ⟨10, 11⟩⟩,
      ⟨.sign .less, ⟨11, 12⟩⟩, ⟨.sign .greater, ⟨12, 13⟩⟩, ⟨.punctuation '(', ⟨13, 14⟩⟩,
      ⟨.punctuation ')', ⟨14, 15⟩⟩], none) := by decide +kernel
  have hparse : parse text = .ok e := by
    rw [parse_of_read hread]
    with_unfolding_all rfl
  exact ⟨hparse, parse_sound hparse⟩

end Expr

end Stencil
