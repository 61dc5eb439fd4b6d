import Stencil.Compile.Expression
import Stencil.Proofs.Text.Trim
import Stencil.Proofs.Token.Reading

/-!
# Texts that pass through

A text that only names a variable or a method is left as it is. Reading and resolving it would find no
problem either, but it would not always give the text back.

**The law** (`Context.resolve_of_passesThrough`): every text that passes through can be read and
resolves without a problem, and the resolved expression is written as the text if and only if
no import takes its name (`Shadows`). Resolution looks at the imports first, and writes the qualified
name of a class, or of a static member, for a name that is also one of the component
(`resolve_imported_property`).

A text that passes through is a name or the call of a method without arguments
(`Named.cases_of_isSimple`), so the law is one of two kinds of expressions (`resolve_name`,
`resolve_call`). That the variables and methods of the context have names that can be written
(`Named`) is asked; a component is described by a program, and so is every variable.

**What it does not establish.** Which of the two ways is right is not decided here.
-/

namespace Stencil

open Token (IsName)

/-! ## Reading a name -/

/-- A name is read as a bare name. -/
theorem Expr.parse_name {n : String} (h : IsName n) :
    ∃ span, Expr.parse n = .ok (.name span n) := by
  have hread := Token.readFrom_word n.utf8ByteSize [] h.1 (by simp)
  rw [List.append_nil, String.ofList_toList, Token.wordLexeme_of_isName h, Token.readFrom_nil] at hread
  rw [Expr.parse, Token.readAll, Token.read, hread]
  exact ⟨_, rfl⟩

/-- A name and a pair of parentheses are read as a call. -/
theorem Expr.parse_call {n : String} (h : IsName n) :
    ∃ span, Expr.parse (n ++ "()") = .ok (.call span n []) := by
  have hread := Token.readFrom_word (n ++ "()").utf8ByteSize ['(', ')'] h.1
    (by rintro _ ⟨⟩; decide +kernel)
  rw [String.ofList_toList, Token.wordLexeme_of_isName h, Token.readFrom_punctuation rfl (by decide),
    Token.readFrom_punctuation rfl (by decide), Token.readFrom_nil] at hread
  rw [Expr.parse, Token.readAll, Token.read, String.toList_append]
  erw [hread]
  exact ⟨_, rfl⟩

/-! ## What passes through -/

namespace Context

/-- The names of the component's members and of the variables in scope are names. -/
structure Named (ctx : Context) : Prop where
  properties : ∀ m ∈ ctx.component.levels, ∀ n ∈ m.properties.keys, IsName n
  methods : ∀ m ∈ ctx.component.levels, ∀ n ∈ m.methods, IsName n
  scopes : ∀ scope ∈ ctx.scopes, ∀ v ∈ scope, IsName v.name

/-- An import takes the name that the text is, or the name that it calls. -/
def Shadows (ctx : Context) (text : String) : Prop :=
  (IsName text ∧ ∃ q, ctx.imports.names.find? text = some q ∧ q ≠ text) ∨
    ∃ n q, text = n ++ "()" ∧ ctx.staticImports.names.find? n = some q ∧ q ≠ n

/-- Methods have names. -/
theorem Named.isName_of_hasMethod {ctx : Context} (h : ctx.Named) {n : String}
    (hn : ctx.component.hasMethod n = true) : IsName n := by
  obtain ⟨m, hm, hmem⟩ := List.any_eq_true.1 hn
  exact h.methods m hm n (List.contains_iff_mem.1 hmem)

/-- What is found by a name has one. -/
theorem Named.isName_of_find? {ctx : Context} (h : ctx.Named) {n : String} {v : Variable}
    (hn : ctx.find? n = some v) : IsName n := by
  unfold find? at hn
  split at hn
  · next found hfound =>
    obtain ⟨scope, hscope, hv⟩ := List.exists_of_findSome?_eq_some hfound
    have hv : List.find? (fun v => v.name == n) scope = some found := hv
    have hname : found.name = n := by simpa using List.find?_some hv
    exact hname ▸ h.scopes scope hscope found (List.mem_of_find?_eq_some hv)
  · split at hn
    · next type htype =>
      obtain ⟨m, hm, hproperty⟩ := List.exists_of_findSome?_eq_some htype
      obtain ⟨front, back, hentries, -⟩ := List.lookup_eq_some_iff.1 hproperty
      exact h.properties m hm n (List.mem_map.2 ⟨(n, type), by simp [hentries], rfl⟩)
    · split at hn
      · next hmethod => exact h.isName_of_hasMethod hmethod
      · cases hn

/-- A text that passes through is a name, which stands for something, or the call of a method. -/
theorem Named.cases_of_isSimple {ctx : Context} (h : ctx.Named) {text : String}
    (hsimple : ctx.isSimple text = true) :
    IsName text ∧ (ctx.find? text).isSome = true ∨
      ∃ n, text = n ++ "()" ∧ IsName n ∧ ctx.component.hasMethod n = true := by
  rcases Bool.or_eq_true_iff.1 hsimple with hmethod | hfind
  · unfold methodName at hmethod
    extract_lets cs at hmethod
    split at hmethod
    · next hsuffix =>
      obtain ⟨front, hfront⟩ := List.isSuffixOf_iff_suffix.1 hsuffix
      have htake : cs.take (cs.length - 2) = front := by
        rw [← hfront, List.length_append]
        exact List.take_left' (by simp)
      rw [htake] at hmethod
      refine .inr ⟨String.ofList front, ?_, h.isName_of_hasMethod hmethod, hmethod⟩
      rw [← String.toList_inj, String.toList_append, String.toList_ofList]
      exact hfront.symm
    · refine .inl ⟨h.isName_of_hasMethod hmethod, ?_⟩
      unfold find?
      split
      · rfl
      · split
        · rfl
        · rw [if_pos hmethod]
          rfl
  · obtain ⟨v, hv⟩ := Option.isSome_iff_exists.1 hfind
    exact .inl ⟨h.isName_of_find? hv, hfind⟩

/-! ## What resolution writes -/

/-- A name has only characters of identifiers. -/
theorem part_of_isName {n : String} (h : IsName n) {c : Char} (hc : c ∈ n.toList) :
    Text.isIdentifierPart c = true :=
  Text.isIdentifierPart_of_isIdentifier h.1 c hc

/-- A call is not a name. -/
theorem not_isName_call (n : String) : ¬ IsName (n ++ "()") := fun h =>
  absurd (part_of_isName h (c := '(') (by simp)) (by decide +kernel)

/-- Calls of different methods are different texts. -/
theorem call_inj {m n : String} : m ++ "()" = n ++ "()" ↔ m = n := by
  rw [← String.toList_inj, ← String.toList_inj, String.toList_append, String.toList_append,
    List.append_left_inj]

/-- A name has no full stop. -/
theorem cutAtChar_of_isName {n : String} (h : IsName n) :
    Text.cutAtChar '.' n.toList = none := by
  cases hcut : Text.cutAtChar '.' n.toList with
  | none => rfl
  | some cut =>
    have hmem : '.' ∈ n.toList := by simp [Text.eq_of_cutAt hcut]
    exact absurd (part_of_isName h hmem) (by decide +kernel)

/-- A name is written as the class that is imported by it, or as it is. -/
theorem writtenName_of_isName (ctx : Context) {event n : String} (h : IsName n) (hne : n ≠ event) :
    ctx.writtenName event n = (ctx.imports.names.find? n).getD n := by
  have hqualify : ctx.imports.qualifyClass n = (ctx.imports.names.find? n).getD n := by
    unfold Imports.qualifyClass
    cases ctx.imports.names.find? n with
    | some q => rfl
    | none => simp [cutAtChar_of_isName h]
  unfold writtenName referent
  rw [if_neg hne]
  split
  · next q hq =>
    split at hq
    · next hknows =>
      cases hq
      exact hqualify
    · split at hq
      · split at hq <;> cases hq
      · cases hq
  · next hq =>
    by_cases hknows : ctx.imports.knows n = true
    · rw [if_pos hknows] at hq
      exact absurd rfl (hq _)
    · cases hfind : ctx.imports.names.find? n with
      | none => rfl
      | some q => simp [Imports.knows, Table.contains, hfind] at hknows

/-- A call is written as the static member that is imported by its name, or as it is. -/
theorem callName_eq (ctx : Context) (n : String) :
    ctx.callName n = (ctx.staticImports.names.find? n).getD n := by
  unfold callName Imports.qualifyMember
  split
  · rfl
  · next hknows =>
    cases hfind : ctx.staticImports.names.find? n with
    | none => rfl
    | some q => simp [Imports.knows, Table.contains, hfind] at hknows

/-! ## The two ways compared -/

/-- A name that stands for something is resolved without a problem. -/
theorem resolve_name {ctx : Context} {event n : String} (takesCast : Bool) (span : Span)
    (hname : IsName n) (hne : n ≠ event) (hfind : (ctx.find? n).isSome = true) :
    (ctx.resolve event takesCast (.name span n)).problems = [] ∧
      (ctx.resolve event takesCast (.name span n)).expression.print =
        (ctx.imports.names.find? n).getD n := by
  have hrename : (Expr.name span n).rename ctx.qualify (ctx.writtenName event) ctx.callName =
      .name span ((ctx.imports.names.find? n).getD n) :=
    congrArg (Expr.name span) (writtenName_of_isName ctx hname hne)
  refine ⟨?_, ?_⟩
  · have hresolved : ∀ problem, ctx.referent event ⟨n, none⟩ ≠ .unresolved problem := by
      intro problem h
      unfold referent at h
      rw [if_neg hne] at h
      split at h
      · cases h
      · split at h
        · split at h <;> cases h
        · next hnone => simp [hnone] at hfind
    show List.filterMap _ [] ++ List.filterMap _ [ctx.referent event ⟨n, none⟩] = []
    rw [List.filterMap_nil, List.nil_append, List.filterMap_cons, List.filterMap_nil]
    split
    · rfl
    · next problem hproblem =>
      split at hproblem
      · next h => exact absurd h (hresolved _)
      · cases hproblem
  · cases takesCast <;> simp [resolve, hrename, Expr.takeLeadingCast, Expr.leadingCast?, Expr.print]

/-- A call of a method is resolved without a problem. -/
theorem resolve_call {ctx : Context} {n : String} (event : String) (takesCast : Bool) (span : Span)
    (hmethod : ctx.component.hasMethod n = true) :
    (ctx.resolve event takesCast (.call span n [])).problems = [] ∧
      (ctx.resolve event takesCast (.call span n [])).expression.print =
        (ctx.staticImports.names.find? n).getD n ++ "()" := by
  have hrename : (Expr.call span n []).rename ctx.qualify (ctx.writtenName event) ctx.callName =
      .call span ((ctx.staticImports.names.find? n).getD n) [] :=
    congrArg (Expr.call span · []) (callName_eq ctx n)
  refine ⟨?_, ?_⟩
  · show List.filterMap _ [n] ++ List.filterMap _ [] = []
    simp [callProblem?, hmethod]
  · cases takesCast <;> simp [resolve, hrename, Expr.takeLeadingCast, Expr.leadingCast?, Expr.print,
      Expr.printArgs, Expr.printList, Text.joinWith]

/-- A text that passes through can be read and resolves without a problem; the resolved expression
is written like the text if and only if no import takes the name. -/
theorem resolve_of_passesThrough {settings : Settings} {ctx : Context} {site : BindingSite}
    {text : String} (hnamed : ctx.Named)
    (h : ctx.passesThrough settings site text = true) :
    ∃ tree, Expr.parse text = .ok tree ∧
      (ctx.resolve settings.eventParameter site.prop?.isNone tree).problems = [] ∧
      ((ctx.resolve settings.eventParameter site.prop?.isNone tree).expression.print = text ↔
        ¬ ctx.Shadows text) := by
  simp only [passesThrough, Bool.and_eq_true, bne_iff_ne] at h
  obtain ⟨⟨-, hne⟩, hsimple⟩ := h
  -- A simple text is a name, or a call of a method without arguments; either resolves to itself but
  -- for the imports.
  rcases hnamed.cases_of_isSimple hsimple with ⟨hname, hfind⟩ | ⟨n, rfl, hname, hmethod⟩
  · obtain ⟨span, hparse⟩ := Expr.parse_name hname
    obtain ⟨hproblems, hprint⟩ := resolve_name site.prop?.isNone span hname hne hfind
    refine ⟨_, hparse, hproblems, ?_⟩
    have hcall : ¬ ∃ n q, text = n ++ "()" ∧ ctx.staticImports.names.find? n = some q ∧ q ≠ n := by
      rintro ⟨n, q, rfl, -⟩
      exact not_isName_call n hname
    rw [hprint, Shadows, or_iff_left hcall]
    cases ctx.imports.names.find? text with
    | none => simp
    | some q => simp [hname]
  · obtain ⟨span, hparse⟩ := Expr.parse_call hname
    obtain ⟨hproblems, hprint⟩ := resolve_call settings.eventParameter site.prop?.isNone span hmethod
    refine ⟨_, hparse, hproblems, ?_⟩
    have hshadows : ctx.Shadows (n ++ "()") ↔
        ∃ q, ctx.staticImports.names.find? n = some q ∧ q ≠ n := by
      constructor
      · rintro (⟨hcall, -⟩ | ⟨m, q, heq, hq⟩)
        · exact absurd hcall (not_isName_call n)
        · exact ⟨q, call_inj.1 heq ▸ hq⟩
      · exact fun ⟨q, hq⟩ => .inr ⟨n, q, rfl, hq⟩
    rw [hprint, hshadows]
    cases ctx.staticImports.names.find? n with
    | none => simp
    | some q => simp

/-- A property of a component, in a template that imports a class of another name. -/
theorem resolve_title :
    let ctx : Context := {
      component := { own := { properties := .ofList [("title", .int)] } }
      imports := Imports.add {} "java.lang.Math" }
    ∃ tree, Expr.parse "title" = .ok tree ∧ (ctx.resolve "$event" true tree).problems = [] ∧
      ((ctx.resolve "$event" true tree).expression.print = "title" ↔ ¬ ctx.Shadows "title") :=
  @resolve_of_passesThrough {} _ ⟨none, none, .dynamic, ⟨0, 5⟩⟩ "title"
    ⟨by decide +kernel, by decide +kernel, by decide +kernel⟩ (by decide +kernel)

/-- A property passes through as it is, where the class imported under its name would be written. -/
theorem resolve_imported_property :
    let ctx : Context := {
      component := { own := { properties := .ofList [("Math", .int)] } }
      imports := Imports.add {} "java.lang.Math" }
    ctx.Named ∧ ctx.passesThrough {} ⟨none, none, .dynamic, ⟨0, 4⟩⟩ "Math" = true ∧
      ∃ tree, Expr.parse "Math" = .ok tree ∧
        (ctx.resolve "$event" true tree).expression.print = "java.lang.Math" := by
  refine ⟨⟨by decide +kernel, by decide +kernel, by decide +kernel⟩, by decide +kernel, ?_⟩
  obtain ⟨span, hparse⟩ := Expr.parse_name (n := "Math") (by decide +kernel)
  refine ⟨_, hparse, (resolve_name true span ?_ ?_ ?_).2.trans ?_⟩ <;> decide +kernel

end Context

end Stencil
