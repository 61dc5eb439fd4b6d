import Stencil.Proofs.Compile.Template

/-!
# The types of the expressions

The policy for the type of an expression, its highest rule first: nothing for an event, a truth value
for a condition, the type of the prop that the attribute passes, a text for an interpolation, a number
or anything for what a loop goes through; and only where none of these fixes the type, that of a
leading cast. `promisedType` is this policy.

**The law** (`returnType_eq_promised_iff`): every expression of a compile, successful or not, belongs
to a visit of a place, and the policy is kept exactly where a prop is passed, where no rule above the
cast applies, and where the cast agrees with the policy or is missing. For a compile lets a leading
cast decide whenever no prop is passed (`Visit.Compiled.returnType_eq`). So a cast in front of an
event, a condition, an interpolation or an iterable overrides the policy (`event_returns_int`).

**What it does not establish.** Whether the type is the one that the expression has when it is run is
not spoken of: nothing in a compile looks at what an expression comes to.
-/

namespace Stencil

open Markup (Attribute Element Node)

/-! ## Leading casts and names -/

/-- Renaming renames the type of the leading cast, and what is behind it. -/
theorem Expr.leadingCast?_rename (type : TypeRef → TypeRef) (name call : String → String)
    (e : Expr) : (e.rename type name call).leadingCast? =
      e.leadingCast?.map fun cast => (type cast.1, cast.2.rename type name call) := by
  fun_induction Expr.leadingCast? e with
  | case1 span t operand => rfl
  | case2 span op left right ih =>
    show ((left.rename type name call).leadingCast?).map _ = _
    rw [ih, Option.map_map, Option.map_map]
    rfl
  | case3 e hcast hbinary =>
    cases e with
    | cast span t operand => exact absurd rfl (hcast span t operand)
    | binary span op left right => exact absurd rfl (hbinary span op left right)
    | _ => rfl

/-- The type that a resolution takes from a leading cast. -/
theorem castType_resolve (ctx : Context) (event : String) (takesCast : Bool) (e : Expr) :
    (ctx.resolve event takesCast e).castType =
      if takesCast then e.leadingCast?.map fun cast => ctx.qualify cast.1 else none := by
  cases takesCast with
  | false => rfl
  | true =>
    have h := e.leadingCast?_rename ctx.qualify (ctx.writtenName event) ctx.callName
    simp only [Context.resolve, Expr.takeLeadingCast, h]
    cases e.leadingCast? <;> rfl

/-! ## The policy -/

namespace Visit

/-- The type of the cast that the expression at the place starts with, qualified by the imports. -/
def leadingType? (v : Visit) (tree : Expr) : Option TypeRef :=
  tree.leadingCast?.map fun cast => v.before.context.qualify cast.1

/-- The prop that the place passes. -/
def passedProp? (v : Visit) : Option DeclaredProp :=
  match v.place with
  | .value e a => Compile.passedProp? v.before.context (Compile.childOf? v.before.context e) a
  | .loop .. | .marker .. => none

/-- Whether the type at the place is fixed by a rule that does not ask for a prop. -/
def IsFixed (v : Visit) : Prop :=
  match v.place with
  | .value _ a => AttributeKind.ofName a.name = .event ∨ AttributeKind.ofName a.name = .conditional
  | .loop .. | .marker .. => True

/-- The type that the policy gives the expression at the place, when that starts with a cast to
`cast?`. -/
def promisedType (v : Visit) (cast? : Option TypeRef) : TypeRef :=
  match v.place with
  | .value _ a =>
    match AttributeKind.ofName a.name with
    | .event => .void
    | .conditional => .boolean
    | .loop | .model | .propertyBinding | .directive | .plain =>
      match v.passedProp? with
      | some prop => prop.type
      | none => cast?.getD .dynamic
  | .marker .. => .string
  | .loop .. => if LoopDefinition.isInteger v.written.toList then .int else .dynamic

/-- What the site says of the prop and the type agrees with the policy for a text without a cast. -/
theorem Fits.expectedType {v : Visit} (h : v.Fits) :
    v.site.prop? = v.passedProp? ∧ v.site.expectedType = v.promisedType none := by
  unfold Fits at h
  unfold promisedType passedProp?
  cases hplace : v.place with
  | loop e a =>
    rw [hplace] at h
    obtain ⟨outer, definition, hparse, -, hsite, hwritten, -⟩ := h
    rw [hsite, hwritten]
    refine ⟨rfl, ?_⟩
    unfold LoopDefinition.parse at hparse
    split at hparse
    · cases hparse
      rw [String.toList_ofList]
    · cases hparse
  | marker offset m =>
    rw [hplace] at h
    rw [h.1]
    exact ⟨rfl, rfl⟩
  | value e a =>
    rw [hplace] at h
    obtain ⟨-, hsite, -⟩ := h
    rw [hsite]
    refine ⟨rfl, ?_⟩
    simp only
    generalize AttributeKind.ofName a.name = kind
    cases kind <;>
      cases Compile.passedProp? v.before.context (Compile.childOf? v.before.context e) a <;> rfl

/-- Where the type is fixed, a cast does not matter to the policy. -/
theorem promisedType_of_isFixed {v : Visit} (h : v.IsFixed) (cast? : Option TypeRef) :
    v.promisedType cast? = v.promisedType none := by
  unfold IsFixed at h
  unfold promisedType
  cases hplace : v.place with
  | loop e a => rfl
  | marker offset m => rfl
  | value e a =>
    simp only [hplace] at h ⊢
    rcases h with h | h <;> rw [h]

/-- Where a prop is passed, a cast does not matter to the policy. -/
theorem promisedType_of_prop {v : Visit} {prop : DeclaredProp} (h : v.passedProp? = some prop)
    (cast? : Option TypeRef) : v.promisedType cast? = v.promisedType none := by
  unfold promisedType
  cases hplace : v.place with
  | loop e a => rfl
  | marker offset m => rfl
  | value e a => cases AttributeKind.ofName a.name <;> simp [h]

/-- Elsewhere a cast decides, if there is one. -/
theorem promisedType_of_not_isFixed {v : Visit} (h : ¬ v.IsFixed) (hprop : v.passedProp? = none)
    (cast? : Option TypeRef) : v.promisedType cast? = cast?.getD (v.promisedType none) := by
  unfold IsFixed at h
  unfold promisedType
  cases hplace : v.place with
  | loop e a => simp [hplace] at h
  | marker offset m => simp [hplace] at h
  | value e a =>
    simp only [hplace, not_or] at h ⊢
    cases hkind : AttributeKind.ofName a.name with
    | event => exact absurd hkind h.1
    | conditional => exact absurd hkind h.2
    | loop | model | propertyBinding | directive | plain => simp [hprop]

end Visit

/-! ## What a compile does -/

/-- The type of an expression: a leading cast decides unless a prop is passed. -/
theorem Visit.Compiled.returnType_eq {job : Job} {v : Visit} {entry : TemplateExpression}
    (h : v.Compiled job) (hentry : v.expression? = some entry) :
    ∃ tree, Expr.parse (Text.trimString v.written) = .ok tree ∧
      entry.returnType =
        (if v.passedProp?.isNone then v.leadingType? tree else none).getD (v.promisedType none) := by
  obtain ⟨hfits, after, hrun, -⟩ := h
  obtain ⟨hprop, hexpected⟩ := hfits.expectedType
  obtain ⟨tree, hparse, -, rfl⟩ := hrun.entered entry hentry
  refine ⟨tree, hparse, ?_⟩
  rw [Compiled.nextExpression, castType_resolve, hprop, hexpected]
  rfl

/-- Every expression of a compile, successful or not, belongs to a visit of a place of the template.
Its type is the one of the policy if and only if the place passes a prop, or leaves the type to the
cast, or the cast, if there is one, agrees with the policy. -/
theorem returnType_eq_promised_iff {settings : Settings} {url template : String} {ctx : Context}
    {entry : TemplateExpression}
    (h : entry ∈ ((Compile.source ⟨settings, ⟨url, template.toList⟩⟩).exec
      { context := ctx }).2.result.expressions) :
    ∃ (v : Visit) (tree : Expr), v.place ∈
        Markup.rootPlaces settings (Markup.Tree.ofSource template.toList).nodes ∧
      v.Compiled ⟨settings, ⟨url, template.toList⟩⟩ ∧ v.expression? = some entry ∧
      Expr.parse (Text.trimString v.written) = .ok tree ∧
      (entry.returnType = v.promisedType (v.leadingType? tree) ↔
        v.passedProp?.isSome ∨ ¬ v.IsFixed ∨
          ∀ type, v.leadingType? tree = some type → type = v.promisedType (some type)) := by
  obtain ⟨p, vs, q, -, hnone, htrail, hsome, hq, -⟩ :=
    Compile.exec_source ⟨settings, ⟨url, template.toList⟩⟩ ctx
  rw [hq, htrail.expressions, hnone, List.nil_append, List.mem_filterMap] at h
  obtain ⟨v, hv, hentry⟩ := h
  have hcompiled := htrail.compiled v hv
  obtain ⟨tree, hparse, htype⟩ := hcompiled.returnType_eq hentry
  refine ⟨v, tree, hsome.subset (List.mem_map_of_mem hv), hcompiled, hentry, hparse, ?_⟩
  rw [htype]
  cases hprop : v.passedProp? with
  | some prop => simp [Visit.promisedType_of_prop hprop]
  | none =>
    by_cases hfixed : v.IsFixed
    · simp only [Visit.promisedType_of_isFixed hfixed]
      cases v.leadingType? tree with
      | none => simp
      | some type => simp [hfixed]
    · rw [Visit.promisedType_of_not_isFixed hfixed hprop (v.leadingType? tree)]
      simp [hfixed]

/-- The expressions of a compiled template are those that the compile has recorded. -/
theorem compileTemplate_expressions {settings : Settings} {url template : String} {ctx : Context}
    {c : Compiled} (h : (compileTemplate settings url template ctx).answer = .ok c) :
    c.expressions = ((Compile.source ⟨settings, ⟨url, template.toList⟩⟩).exec
      { context := ctx }).2.result.expressions := by
  obtain ⟨p, vs, q, -, -, -, -, hq, hok⟩ :=
    Compile.exec_source ⟨settings, ⟨url, template.toList⟩⟩ ctx
  rw [hq, (hok c h).2]

/-- A binding without a rule of its own leaves the type to the cast. -/
theorem returnType_of_bound_cast : ∃ (entry : TemplateExpression) (v : Visit) (tree : Expr),
    entry.returnType = .int ∧ v.expression? = some entry ∧
      Expr.parse (Text.trimString v.written) = .ok tree ∧
      (entry.returnType = v.promisedType (v.leadingType? tree) ↔
        v.passedProp?.isSome ∨ ¬ v.IsFixed ∨
          ∀ type, v.leadingType? tree = some type → type = v.promisedType (some type)) := by
  have hrun : (((Compile.source ⟨{}, ⟨"a.html", "<p :size=\"(int) 1\"></p>".toList⟩⟩).exec
      { context := {} }).2.result.expressions).head?.map (·.returnType) = some .int := by
    decide +kernel
  obtain ⟨entry, hentry, htype⟩ := Option.map_eq_some_iff.1 hrun
  obtain ⟨v, tree, -, -, hv, hparse, hiff⟩ :=
    returnType_eq_promised_iff (List.mem_of_mem_head? hentry)
  exact ⟨entry, v, tree, htype, hv, hparse, hiff⟩

/-- A cast in front of the call in an event binding makes the event return a number. -/
theorem event_returns_int : ∃ (c : Compiled) (entry : TemplateExpression),
    (compileTemplate {} "a.html" "<p @click=\"(int) foo()\"></p>"
      { component := { own := { methods := ["foo"] } } }).answer = .ok c ∧
    c.expressions = [entry] ∧ entry.kind = .event ∧ entry.returnType ≠ .void := by
  have hrun : (compileTemplate {} "a.html" "<p @click=\"(int) foo()\"></p>"
      { component := { own := { methods := ["foo"] } } }).answer.toOption.map (fun c =>
        c.expressions.map fun entry => (entry.kind, entry.returnType)) = some [(.event, .int)] := by
    decide +kernel
  obtain ⟨c, hc, hentries⟩ := Option.map_eq_some_iff.1 hrun
  obtain ⟨entry, hexpressions, hentry⟩ := List.map_eq_singleton_iff.1 hentries
  obtain ⟨hkind, htype⟩ := Prod.mk.inj hentry
  refine ⟨c, entry, eq_ok_of_toOption hc, hexpressions, hkind, ?_⟩
  rw [htype]
  decide

end Stencil
