import Stencil.Proofs.Expr.Grip
import Stencil.Proofs.Token.Front

/-!
# Expressions at other places

A text that is read as a part of another one has its tokens at other places. What the tokens of a type
or an expression mean does not depend on where they stand: when all of them are moved by the same
number of bytes, they are the same type (`TypeRef.Derives.shift`), and the same expression with its
spans moved along (`Expr.Derives.shift`).

The only thing that the grammar asks of places is that signs which make one operator touch, and tokens
that are moved together touch as before (`AreSigns.shift`). The span of a node is the cover of its
tokens, which moves with them (`cover_shift`). So the second lemma goes by induction on the
derivation, with the same constructor on both sides.

`Expr.shift` moves the spans of a tree; it is `mapSpans` with one function, and what does not depend
on spans is shown of `mapSpans` once: the level, being a type test, being a target, and the expression
without its spans (`eraseSpans_mapSpans`).

**What it does not establish.** Tokens are moved to the right only.
-/

namespace Stencil

variable {ts us : List Token} {n : Nat}

namespace Token

/-- Where tokens reach from and to moves with them. -/
theorem cover_shift (hne : ts ≠ []) : cover (ts.map (·.shift n)) = (cover ts).shift n := by
  obtain ⟨t, us, rfl⟩ := List.exists_cons_of_ne_nil hne
  rw [cover, cover, endOf, endOf, List.getLast?_map, List.getLast?_cons]
  rfl

/-- Signs that touch still do when they are moved. -/
theorem AreSigns.shift {ss : List Sign} (h : AreSigns ss ts) (n : Nat) :
    AreSigns ss (ts.map (·.shift n)) := by
  induction ss generalizing ts with
  | nil =>
    obtain rfl := areSigns_nil.1 h
    trivial
  | cons s ss ih =>
    obtain ⟨span, us, rfl, htouch, hss⟩ := areSigns_cons.1 h
    refine areSigns_cons.2 ⟨span.shift n, us.map (·.shift n), rfl, fun u hu => ?_, ih hss⟩
    rw [List.head?_map] at hu
    obtain ⟨v, hv, rfl⟩ := Option.map_eq_some_iff.1 hu
    exact (touches_shift n ⟨.sign s, span⟩ v).trans (htouch v hv)

end Token

/-- Joined parts, moved. -/
theorem Joined.map {parts : List (List Token)} (h : Joined us parts) (n : Nat) :
    Joined (us.map (·.shift n)) (parts.map (·.map (·.shift n))) := by
  induction h with
  | none => exact .none
  | one ts => exact .one _
  | more span _ ih =>
    rw [List.map_append, List.map_cons, List.map_cons]
    exact .more (span.shift n) ih

/-- Tokens that are moved end in a name if they did. -/
@[simp] theorem endsInName_shift : EndsInName (ts.map (·.shift n)) ↔ EndsInName ts := by
  rw [EndsInName, EndsInName, List.getLast?_map, Option.map_map]
  rfl

namespace TypeRef

variable {name full : String} {dims : Nat} {t : TypeRef}

/-- A dotted name, moved. -/
theorem Dotted.shift (h : Dotted name ts full) (n : Nat) :
    Dotted name (ts.map (·.shift n)) full := by
  induction h with
  | stop name => exact .stop name
  | dot s₁ s₂ _ ih => exact .dot (s₁.shift n) (s₂.shift n) ih

/-- Dimensions, moved. -/
theorem Dims.shift (h : Dims ts dims) (n : Nat) : Dims (ts.map (·.shift n)) dims := by
  induction h with
  | none => exact .none
  | dim s₁ s₂ _ ih => exact .dim (s₁.shift n) (s₂.shift n) ih

/-- The tokens of a type are the same type elsewhere. -/
theorem Derives.shift (h : Derives ts t) (n : Nat) : Derives (ts.map (·.shift n)) t := by
  induction h with
  | primitive span hword hdims => exact .primitive (span.shift n) hword (hdims.shift n)
  | plain span hname hdims =>
    rw [List.map_cons, List.map_append]
    exact .plain (span.shift n) (hname.shift n) (hdims.shift n)
  | diamond span s₁ s₂ hname hdims =>
    rw [List.map_cons, List.map_append]
    exact .diamond (span.shift n) (s₁.shift n) (s₂.shift n) (hname.shift n) (hdims.shift n)
  | @generic name full ts us ds parts dims span s₁ s₂ hname hne hjoined hparts hdims ih =>
    -- The parts are moved together with their tokens, so that the commas between them stay between
    -- them.
    let moved := parts.map fun p => (p.1.map (·.shift n), p.2)
    have htypes : moved.map (·.2) = parts.map (·.2) := by simp [moved, Function.comp_def]
    have htokens : moved.map (·.1) = (parts.map (·.1)).map (·.map (·.shift n)) := by
      simp [moved, Function.comp_def]
    have hall : ∀ p ∈ moved, ¬ IsWildcard p → Derives p.1 p.2 := by
      intro p hp hwild
      obtain ⟨q, hq, rfl⟩ := List.mem_map.1 hp
      refine ih q hq fun ⟨hquestion, span, hspan⟩ => hwild ⟨hquestion, span.shift n, ?_⟩
      rw [hspan]
      rfl
    rw [← htypes, List.map_cons, List.map_append, List.map_cons, List.map_append, List.map_cons]
    exact .generic (span.shift n) (s₁.shift n) (s₂.shift n) (hname.shift n) (by simpa [moved])
      (htokens ▸ hjoined.map n) hall (hdims.shift n)

/-- The tokens of a class are the same class elsewhere. -/
theorem DerivesClass.shift (h : DerivesClass ts t) (n : Nat) :
    DerivesClass (ts.map (·.shift n)) t := by
  obtain ⟨name, hname⟩ := h.first
  refine ⟨h.derives.shift n, h.named, name, ?_⟩
  rw [← hname, List.head?_map, Option.map_map]
  rfl

end TypeRef

namespace Expr

variable {e : Expr}

mutual

/-- The expression with `f` of each span in place of the span. -/
def mapSpans (f : Span → Span) : Expr → Expr
  | literal s kind value => literal (f s) kind value
  | name s n => name (f s) n
  | this s => this (f s)
  | field s scope n => field (f s) (scope.mapSpans f) n
  | call s n args => call (f s) n (mapSpansList f args)
  | method s scope n args => method (f s) (scope.mapSpans f) n (mapSpansList f args)
  | index s array position => index (f s) (array.mapSpans f) (position.mapSpans f)
  | creation s type args => creation (f s) type (mapSpansList f args)
  | cast s type operand => cast (f s) type (operand.mapSpans f)
  | instanceOf s operand type => instanceOf (f s) (operand.mapSpans f) type
  | classLiteral s type => classLiteral (f s) type
  | unary s op operand => unary (f s) op (operand.mapSpans f)
  | binary s op left right => binary (f s) op (left.mapSpans f) (right.mapSpans f)
  | conditional s condition whenTrue whenFalse =>
    conditional (f s) (condition.mapSpans f) (whenTrue.mapSpans f) (whenFalse.mapSpans f)
  | assign s op target value => assign (f s) op (target.mapSpans f) (value.mapSpans f)
  | enclosed s inner => enclosed (f s) (inner.mapSpans f)

/-- `mapSpans` on each expression of a list. -/
def mapSpansList (f : Span → Span) : List Expr → List Expr
  | [] => []
  | e :: es => e.mapSpans f :: mapSpansList f es

end

/-- The expression `n` bytes further to the right. -/
def shift (n : Nat) (e : Expr) : Expr := e.mapSpans (·.shift n)

/-- Several expressions with other spans. -/
theorem mapSpansList_eq (f : Span → Span) (es : List Expr) :
    mapSpansList f es = es.map (mapSpans f) := by
  induction es with
  | nil => rfl
  | cons e es ih => rw [mapSpansList, ih, List.map_cons]

/-- Where an expression stands does not matter to the expression without its spans. -/
@[simp] theorem eraseSpans_mapSpans (f : Span → Span) (e : Expr) :
    (e.mapSpans f).eraseSpans = e.eraseSpans := by
  induction e using inductParts with
  | h e ih =>
    cases e <;> simp_all [mapSpans, eraseSpans, children, eraseSpansList_eq, mapSpansList_eq]

/-- An expression that was moved is the same without its spans. -/
@[simp] theorem eraseSpans_shift (n : Nat) (e : Expr) : (e.shift n).eraseSpans = e.eraseSpans :=
  eraseSpans_mapSpans _ e

@[simp] theorem level_mapSpans (f : Span → Span) (e : Expr) : (e.mapSpans f).level = e.level := by
  rw [← level_eraseSpans, eraseSpans_mapSpans, level_eraseSpans]

/-- Whether an expression is a type test does not depend on spans. -/
@[simp] theorem isTypeTest_mapSpans (f : Span → Span) (e : Expr) :
    (e.mapSpans f).isTypeTest = e.isTypeTest := by
  cases e <;> rfl

/-- Whether an expression can be assigned to does not depend on spans. -/
theorem isTarget_mapSpans (f : Span → Span) (e : Expr) :
    Grammar.isTarget (e.mapSpans f) = Grammar.isTarget e := by
  cases e <;> rfl

/-- Arguments in their parentheses, moved. -/
theorem AreArguments.shift {parts : List (List Token × Expr)} (h : AreArguments ts parts) (n : Nat) :
    AreArguments (ts.map (·.shift n)) (parts.map fun p => (p.1.map (·.shift n), p.2.shift n)) := by
  obtain ⟨us, s₁, s₂, hjoined, rfl⟩ := h
  refine ⟨us.map (·.shift n), s₁.shift n, s₂.shift n, ?_, by simp [Token.shift]⟩
  have hmoved := hjoined.map n
  rwa [List.map_map] at hmoved ⊢

/-- The arguments of a call, moved. -/
theorem args_shift (n : Nat) (parts : List (List Token × Expr)) :
    mapSpansList (·.shift n) (parts.map (·.2)) =
      (parts.map fun p => (p.1.map (·.shift n), p.2.shift n)).map (·.2) := by
  simp [mapSpansList_eq, shift, Function.comp_def]

/-- Parts of an expression, moved. -/
theorem parts_shift {parts : List (List Token × Expr)}
    (h : ∀ p ∈ parts, Derives (p.1.map (·.shift n)) (p.2.shift n)) :
    ∀ p ∈ parts.map fun p => (p.1.map (·.shift n), p.2.shift n), Derives p.1 p.2 := by
  intro p hp
  obtain ⟨q, hq, rfl⟩ := List.mem_map.1 hp
  exact h q hq

/-- The tokens of an expression are the same expression elsewhere, with its spans moved along. -/
theorem Derives.shift (h : Derives ts e) (n : Nat) : Derives (ts.map (·.shift n)) (e.shift n) := by
  induction h with
  | number s span => exact .number s (span.shift n)
  | string v span => exact .string v (span.shift n)
  | character v span => exact .character v (span.shift n)
  | boolean span h => exact .boolean (span.shift n) h
  | null span => exact .null (span.shift n)
  | name m span => exact .name m (span.shift n)
  | this span => exact .this (span.shift n)
  | field hvs h hscope ih =>
    subst hvs
    rw [Expr.shift, mapSpans, ← Token.cover_shift (by simp)]
    exact .field List.map_append ih (by simpa using hscope)
  | call hvs hargs hparts ih =>
    subst hvs
    rw [Expr.shift, mapSpans, ← Token.cover_shift (by simp), args_shift]
    exact .call rfl (hargs.shift n) (parts_shift ih)
  | method hvs h hscope hargs hparts ih ihargs =>
    subst hvs
    rw [Expr.shift, mapSpans, ← Token.cover_shift (by simp), args_shift]
    exact .method List.map_append ih (by simpa using hscope) (hargs.shift n) (parts_shift ihargs)
  | index hvs harray hlevel hposition ih ihposition =>
    subst hvs
    rw [Expr.shift, mapSpans, ← Token.cover_shift (by simp)]
    simp only [List.map_append, List.map_cons, List.map_nil]
    exact .index rfl ih (by simpa using hlevel) ihposition
  | creation hvs htype hargs hparts ih =>
    subst hvs
    rw [Expr.shift, mapSpans, ← Token.cover_shift (by simp), args_shift]
    simp only [List.map_append, List.map_cons]
    exact .creation rfl (htype.shift n) (hargs.shift n) (parts_shift ih)
  | classLiteral hvs hname hdims =>
    subst hvs
    rw [Expr.shift, mapSpans, ← Token.cover_shift (by simp)]
    simp only [List.map_append, List.map_cons, List.map_nil]
    exact .classLiteral rfl (hname.shift n) (hdims.shift n)
  | primitiveClass hvs hword hdims =>
    subst hvs
    rw [Expr.shift, mapSpans, ← Token.cover_shift (by simp)]
    simp only [List.map_append, List.map_cons, List.map_nil]
    exact .primitiveClass rfl hword (hdims.shift n)
  | enclosed hvs h hword ih =>
    subst hvs
    rw [Expr.shift, mapSpans, ← Token.cover_shift (by simp)]
    simp only [List.map_append, List.map_cons, List.map_nil]
    refine .enclosed rfl ih ?_
    simpa using hword
  | behind hvs hop h hoperand ih =>
    subst hvs
    rw [Expr.shift, mapSpans, ← Token.cover_shift (by simp)]
    exact .behind List.map_append hop ih (by simpa using hoperand)
  | before hvs hop h hoperand ih =>
    subst hvs
    rw [Expr.shift, mapSpans, ← Token.cover_shift (by simp)]
    exact .before rfl hop ih (by simpa using hoperand)
  | cast hvs htype h hoperand hstart ih =>
    subst hvs
    rw [Expr.shift, mapSpans, ← Token.cover_shift (by simp)]
    simp only [List.map_append, List.map_cons]
    refine .cast rfl (htype.shift n) ih (by simpa using hoperand) fun t u ht hu => ?_
    rw [List.head?_map, Option.map_eq_some_iff] at ht hu
    obtain ⟨t, ht, rfl⟩ := ht
    obtain ⟨u, hu, rfl⟩ := hu
    exact hstart t u ht hu
  | instanceOf hvs h hoperand htype ih =>
    subst hvs
    rw [Expr.shift, mapSpans, ← Token.cover_shift (by simp)]
    exact .instanceOf List.map_append ih (by simpa using hoperand) (htype.shift n)
  | binary hvs hop hl hr hleft hright hless ihl ihr =>
    subst hvs
    rw [Expr.shift, mapSpans, ← Token.cover_shift (by simp [hl.ne_nil])]
    refine .binary (by simp) (hop.shift n) ihl ihr (by simpa using hleft) (by simpa using hright) ?_
    rw [isTypeTest_mapSpans, endsInName_shift]
    exact hless
  | conditional hvs hc ht hf hcondition hfalse ihc iht ihf =>
    subst hvs
    rw [Expr.shift, mapSpans, ← Token.cover_shift (by simp)]
    simp only [List.map_append, List.map_cons]
    exact .conditional rfl ihc iht ihf (by simpa using hcondition)
      (by simpa using hfalse)
  | assign hvs hop ht hv htarget iht ihv =>
    subst hvs
    rw [Expr.shift, mapSpans, ← Token.cover_shift (by simp [ht.ne_nil])]
    exact .assign (by simp) (hop.shift n) iht ihv ((isTarget_mapSpans _ _).trans htarget)

end Expr

end Stencil
