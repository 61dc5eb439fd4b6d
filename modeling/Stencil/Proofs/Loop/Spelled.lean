import Stencil.Proofs.Loop.Declaration
import Stencil.Proofs.Text.Split
import Mathlib.Data.List.Forall2

/-!
# Definitions that spell a loop

How a loop is written down: declarations of its variables, a separator and the iterable. `Spelled` is
that form for a list of variables, `Declares` the types that they have by it in a context.

**The law** (`LoopDefinition.parse_of_spelled`): a definition that spells a loop is read as that loop,
and each of its variables has the type that it declares, or the default of its place. One place is not
always what it should be. The default type of a key is written as a name and looked up like a declared
type, so an import of the context that fits the name applies to it; the law says exactly when it does
not.

The parts are read one after the other. No separator stands in the declarations
(`SpellsAll.not_stands`), so the division falls where it was written; no comma outside of brackets
stands in one declaration (`SpellsPiece.passes`), so the pieces are the declarations; and each piece
is read as the variable it declares.

**What it does not establish.** White space is free around the definition and around its separator,
line feeds included. Within the declarations, in a type, in front of a name and beside a comma or a
parenthesis, it may be any but a line feed: declarations that go over several lines are not spelled by
any of the forms here. No identifier of a declaration may be a separator, which the law asks for.
-/

namespace Stencil

open Text (isBlank isWhiteSpace trim Stands)
open LoopDefinition (IsSeparator Passes readVariable)

namespace Declaration

/-- A declaration with white space around it, on one line. -/
def SpellsPiece (d : Declaration) (piece : List Char) : Prop :=
  ∃ before cs after, piece = before ++ (cs ++ after) ∧ d.Spells cs ∧
    ∀ c ∈ before ++ after, isWhiteSpace c = true ∧ c ≠ '\n'

/-- The text declares the variables: by one declaration, or by several in parentheses with commas
between them. -/
inductive SpellsAll : List Declaration → List Char → Prop
  | one {d : Declaration} {cs : List Char} (h : d.Spells cs) : SpellsAll [d] cs
  | several {ds : List Declaration} {pieces : List (List Char)} (hne : ds ≠ [])
      (h : List.Forall₂ SpellsPiece ds pieces) :
      SpellsAll ds ('(' :: ([','].intercalate pieces ++ [')']))

/-- The variables have these types in a context; `key` is the type of the second of three variables
if its declaration states none. -/
inductive Declares (ctx : Context) (key : TypeRef) : List Declaration → List TypeRef → Prop
  | value {value : Declaration} {t : TypeRef} (h : value.HasType ctx none t) :
      Declares ctx key [value] [t]
  | indexed {value index : Declaration} {t u : TypeRef} (h : value.HasType ctx none t)
      (hindex : index.HasType ctx (some .int) u) : Declares ctx key [value, index] [t, u]
  | keyed {value second index : Declaration} {t u v : TypeRef} (h : value.HasType ctx none t)
      (hsecond : second.HasType ctx (some key) u) (hindex : index.HasType ctx (some .int) v) :
      Declares ctx key [value, second, index] [t, u, v]

/-- The variables without their types, as they stand in the output. -/
def heading (ds : List Declaration) : String :=
  match ds.map (·.name) with
  | [x] => x
  | [x, y] => "(" ++ x ++ ", " ++ y ++ ")"
  | [x, y, z] => "(" ++ x ++ ", " ++ y ++ ", " ++ z ++ ")"
  | _ => ""

variable {d : Declaration} {ds : List Declaration} {w piece text : List Char}
  {pieces : List (List Char)}

/-! ## Several declarations -/

/-- A name alone, with white space around it. -/
theorem spellsPiece_of_name {name : String} {before after : List Char}
    (hspace : (before ++ after).all (fun c => isWhiteSpace c && c != '\n') = true) :
    SpellsPiece ⟨none, name⟩ (before ++ (name.toList ++ after)) :=
  ⟨before, _, after, rfl, .untyped,
    by simpa only [List.all_eq_true, Bool.and_eq_true, bne_iff_ne] using hspace⟩

/-- A type and a name, with white space around them. -/
theorem spellsPiece_of_type {type name : String} {before gap after : List Char} (hgap : gap ≠ [])
    (hblank : gap.all (fun c => isBlank c && c != '\n') = true)
    (hspace : (before ++ after).all (fun c => isWhiteSpace c && c != '\n') = true) :
    SpellsPiece ⟨some type, name⟩ (before ++ ((type.toList ++ (gap ++ name.toList)) ++ after)) := by
  have hblank' : ∀ c ∈ gap, isBlank c = true ∧ c ≠ '\n' := by simpa using hblank
  refine ⟨before, _, after, rfl, .typed hgap (fun c hc => (hblank' c hc).1) ?_,
    by simpa only [List.all_eq_true, Bool.and_eq_true, bne_iff_ne] using hspace⟩
  exact fun hmem => (hblank' _ hmem).2 rfl

/-- White space around a declaration is trimmed away. -/
theorem SpellsPiece.trim_eq (h : d.SpellsPiece piece) : ∃ cs, d.Spells cs ∧ trim piece = trim cs := by
  obtain ⟨before, cs, after, rfl, hspells, hspace⟩ := h
  refine ⟨cs, hspells, Text.trim_pad (fun c hc => ?_) fun c hc => ?_⟩
  · exact (hspace c (List.mem_append_left after hc)).1
  · exact (hspace c (List.mem_append_right before hc)).1

/-- No separator stands in a declaration with white space around it. -/
theorem SpellsPiece.not_stands (h : d.SpellsPiece piece) (hlegible : d.Legible)
    (hw : IsSeparator w) : ¬ Stands w piece := by
  obtain ⟨cs, hspells, htrim⟩ := h.trim_eq
  rw [← Text.stands_trim hw.ne_nil hw.not_isWhiteSpace, htrim,
    Text.stands_trim hw.ne_nil hw.not_isWhiteSpace]
  exact hspells.not_stands hlegible hw

/-- The search for commas passes over a declaration with white space around it. -/
theorem SpellsPiece.passes (h : d.SpellsPiece piece) (hlegible : d.Legible) : Passes 0 piece 0 := by
  obtain ⟨before, cs, after, rfl, hspells, hspace⟩ := h
  have hgap {gap : List Char} (hgap : gap ⊆ before ++ after) : Passes 0 gap 0 :=
    LoopDefinition.passes_of_isWhiteSpace fun c hc => (hspace c (hgap hc)).1
  exact (hgap (List.subset_append_left before after)).append
    ((hspells.passes hlegible).append (hgap (List.subset_append_right before after)))

/-- A declaration with white space around it has one line. -/
theorem SpellsPiece.line (h : d.SpellsPiece piece) (hlegible : d.Legible) : '\n' ∉ piece := by
  obtain ⟨before, cs, after, rfl, hspells, hspace⟩ := h
  simp only [List.mem_append, not_or]
  refine ⟨fun hmem => ?_, hspells.line hlegible, fun hmem => ?_⟩
  · exact (hspace _ (List.mem_append_left after hmem)).2 rfl
  · exact (hspace _ (List.mem_append_right before hmem)).2 rfl

/-- What every declaration has, every piece has. -/
theorem forall_pieces {p : List Char → Prop} (h : List.Forall₂ SpellsPiece ds pieces)
    (hlegible : ∀ d ∈ ds, d.Legible) (hp : ∀ d piece, SpellsPiece d piece → Legible d → p piece) :
    ∀ piece ∈ pieces, p piece := by
  induction h with
  | nil => exact nofun
  | cons hpiece _ ih =>
    obtain ⟨hd, hds⟩ := List.forall_mem_cons.1 hlegible
    exact List.forall_mem_cons.2 ⟨hp _ _ hpiece hd, ih hds⟩

/-! ## All declarations of a definition -/

/-- No separator stands in the declarations. -/
theorem SpellsAll.not_stands (h : SpellsAll ds text) (hlegible : ∀ d ∈ ds, d.Legible)
    (hw : IsSeparator w) : ¬ Stands w text := by
  intro hstands
  cases h with
  | one h => exact h.not_stands (hlegible _ List.mem_cons_self) hw hstands
  | @several _ pieces hne h =>
    have hmark {c : Char} (hc : c ∈ ['(', ',', ')']) : c ∉ w := by
      have hall : ['(', ',', ')'].all (· ∉ w) = true := by rcases hw with rfl | rfl <;> decide
      simpa using List.all_eq_true.1 hall c hc
    rw [← List.nil_append ('(' :: _)] at hstands
    rcases hstands.append_cons (hmark (by decide)) with hstands | hstands
    · exact Text.not_stands_nil hw.ne_nil hstands
    rcases hstands.append_cons (hmark (by decide)) with hstands | hstands
    · obtain ⟨piece, hpiece, hstands⟩ := Text.exists_of_intercalate (Text.not_stands_nil hw.ne_nil)
        (fun _ _ => Text.Stands.append_cons (hmark (by decide))) hstands
      exact forall_pieces h hlegible (fun _ _ h hd => h.not_stands hd hw) piece hpiece hstands
    · exact Text.not_stands_nil hw.ne_nil hstands

/-- The declarations have one line. -/
theorem SpellsAll.line (h : SpellsAll ds text) (hlegible : ∀ d ∈ ds, d.Legible) : '\n' ∉ text := by
  cases h with
  | one h => exact h.line (hlegible _ List.mem_cons_self)
  | several hne h =>
    intro hmem
    simp only [List.mem_cons, List.mem_append, List.not_mem_nil, or_false,
      show ('\n' : Char) ≠ '(' by decide, show ('\n' : Char) ≠ ')' by decide, false_or] at hmem
    obtain ⟨piece, hpiece, hmem⟩ := Text.exists_of_intercalate (p := ('\n' ∈ ·)) (by simp) (by simp) hmem
    exact forall_pieces h hlegible (fun _ _ h hd => h.line hd) piece hpiece hmem

/-- The declarations end in a name or in a parenthesis. -/
theorem SpellsAll.getLast? (h : SpellsAll ds text) (hlegible : ∀ d ∈ ds, d.Legible) :
    ∃ c, text.getLast? = some c ∧ isWhiteSpace c = false := by
  cases h with
  | one h =>
    obtain ⟨c, hc, hpart⟩ := h.getLast? (hlegible _ List.mem_cons_self)
    exact ⟨c, hc, Text.not_isWhiteSpace_of_isIdentifierPart hpart⟩
  | several => exact ⟨')', by rw [← List.cons_append, List.getLast?_concat], by decide⟩

/-- A definition finds the declarations that it spells. -/
theorem SpellsAll.declarations (h : SpellsAll ds text) (hlegible : ∀ d ∈ ds, d.Legible) :
    List.Forall₂ (fun d piece => ∃ cs, d.Spells cs ∧ trim piece = trim cs) ds
      (LoopDefinition.declarations (trim text)) := by
  cases h with
  | @one d _ h =>
    obtain ⟨c, hc, hpart⟩ := h.getLast? (hlegible _ List.mem_cons_self)
    have hlast := Text.getLast?_trim hc (Text.not_isWhiteSpace_of_isIdentifierPart hpart)
    have hone : LoopDefinition.declarations (trim text) = [trim text] := by
      unfold LoopDefinition.declarations
      split
      · next inner heq =>
        refine if_neg fun hclose => ?_
        -- a declaration does not end in a parenthesis
        rw [heq, List.getLast?_cons, hclose] at hlast
        obtain rfl : ')' = c := Option.some.inj hlast
        revert hpart
        decide +kernel
      · rfl
    rw [hone]
    exact .cons ⟨text, h, Text.trim_trim text⟩ .nil
  | @several _ pieces hne h =>
    have htrim : trim ('(' :: ([','].intercalate pieces ++ [')'])) =
        '(' :: ([','].intercalate pieces ++ [')']) := by
      refine Text.trim_eq_self (fun c hc => ?_) fun c hc => ?_
      · exact Option.some.inj hc ▸ by decide
      · rw [← List.cons_append, List.getLast?_concat] at hc
        exact Option.some.inj hc ▸ by decide
    have hpieces : pieces ≠ [] := by
      rintro rfl
      cases h
      exact hne rfl
    rw [htrim, LoopDefinition.declarations, if_pos List.getLast?_concat, List.dropLast_concat,
      LoopDefinition.splitCommas_intercalate hpieces
        (forall_pieces h hlegible fun _ _ h hd => h.passes hd)]
    exact h.imp fun _ _ h => h.trim_eq

/-- A declaration has a type if it states one or has a default. -/
theorem Legible.exists_hasType (ctx : Context) (default : Option TypeRef) (h : d.Legible)
    (hdefault : d.type? = none → default ≠ none) : ∃ t, d.HasType ctx default t := by
  unfold HasType
  split
  · next text htype =>
    obtain ⟨-, u, hu⟩ := h.type text htype
    exact ⟨ctx.qualify u, u, hu, rfl⟩
  · next htype => exact Option.ne_none_iff_exists'.1 (hdefault htype)

/-- One to three variables, of which the first states its type, have types. -/
theorem exists_declares (ctx : Context) (key : TypeRef) (hlegible : ∀ d ∈ ds, d.Legible)
    (hcount : ds.length ≤ 3) (hvalue : ∃ d, ds.head? = some d ∧ d.type? ≠ none) :
    ∃ types, Declares ctx key ds types := by
  obtain ⟨value, hhead, htype⟩ := hvalue
  rcases ds with _ | ⟨first, _ | ⟨second, _ | ⟨third, _ | ⟨fourth, ds⟩⟩⟩⟩
  · cases hhead
  all_goals
    obtain rfl : first = value := Option.some.inj hhead
    obtain ⟨t, ht⟩ := (hlegible first (by simp)).exists_hasType ctx none
      fun hnone => absurd hnone htype
  · exact ⟨[t], .value ht⟩
  · obtain ⟨u, hu⟩ := (hlegible second (by simp)).exists_hasType ctx (some .int) (by simp)
    exact ⟨[t, u], .indexed ht hu⟩
  · obtain ⟨u, hu⟩ := (hlegible second (by simp)).exists_hasType ctx (some key) (by simp)
    obtain ⟨v, hv⟩ := (hlegible third (by simp)).exists_hasType ctx (some .int) (by simp)
    exact ⟨[t, u, v], .keyed ht hu hv⟩
  · simp only [List.length_cons] at hcount
    omega

/-- The variables that are declared are read with the types that they have. -/
theorem Declares.readVariables {ctx : Context} {types : List TypeRef}
    (h : Declares ctx (ctx.qualify .string) ds types) (hlegible : ∀ d ∈ ds, d.Legible)
    (hpieces : List.Forall₂ (fun d piece => ∃ cs, d.Spells cs ∧ trim piece = trim cs) ds pieces) :
    ∃ declared, LoopDefinition.readVariables pieces = .ok declared ∧
      (declared.map fun (name, type) => (⟨name, ctx.qualify type, .loopLocal⟩ : Variable)) =
        List.zipWith (fun d t => ⟨d.name, t, .loopLocal⟩) ds types := by
  have hread {d : Declaration} {qualified : Option TypeRef} {t : TypeRef} {piece : List Char}
      (hpiece : ∃ cs, d.Spells cs ∧ trim piece = trim cs) (hmem : d ∈ ds)
      (ht : d.HasType ctx qualified t) (default : Option TypeRef)
      (hdefault : default.map ctx.qualify = qualified) :
      ∃ u, readVariable default piece = .ok (d.name, u) ∧ t = ctx.qualify u := by
    obtain ⟨cs, hspells, htrim⟩ := hpiece
    exact hspells.readVariable (hlegible d hmem) htrim (hdefault ▸ ht)
  cases h with
  | value h =>
    obtain _ | ⟨hpiece, _ | _⟩ := hpieces
    obtain ⟨u, hu, rfl⟩ := hread hpiece (by simp) h none rfl
    exact ⟨_, bind_eq_ok.2 ⟨_, hu, rfl⟩, rfl⟩
  | indexed h hindex =>
    obtain _ | ⟨hpiece, _ | ⟨hpiece', _ | _⟩⟩ := hpieces
    obtain ⟨u, hu, rfl⟩ := hread hpiece (by simp) h none rfl
    obtain ⟨v, hv, rfl⟩ := hread hpiece' (by simp) hindex (some .int) rfl
    exact ⟨_, bind_eq_ok.2 ⟨_, hu, bind_eq_ok.2 ⟨_, hv, rfl⟩⟩, rfl⟩
  | keyed h hsecond hindex =>
    obtain _ | ⟨hpiece, _ | ⟨hpiece', _ | ⟨hpiece'', _ | _⟩⟩⟩ := hpieces
    obtain ⟨u, hu, rfl⟩ := hread hpiece (by simp) h none rfl
    obtain ⟨v, hv, rfl⟩ := hread hpiece' (by simp) hsecond (some .string) rfl
    obtain ⟨w, hw, rfl⟩ := hread hpiece'' (by simp) hindex (some .int) rfl
    exact ⟨_, bind_eq_ok.2 ⟨_, hu, bind_eq_ok.2 ⟨_, hv, bind_eq_ok.2 ⟨_, hw, rfl⟩⟩⟩, rfl⟩

end Declaration

/-! ## Definitions -/

/-- The definition is the declarations, a separator and the iterable, with any white space between and
around them. The iterable is not empty, has one line and neither starts nor ends with white space. -/
inductive LoopDefinition.Spelled (ds : List Declaration) (iterable definition : String) : Prop
  | mk {lead declared gap word gap' trail : List Char}
      (hdefinition : definition.toList =
        lead ++ (declared ++ (gap ++ (word ++ (gap' ++ (iterable.toList ++ trail))))))
      (hdeclared : Declaration.SpellsAll ds declared) (hword : IsSeparator word)
      (hgap : gap ≠ []) (hgap' : gap' ≠ [])
      (hspace : ∀ c ∈ lead ++ gap ++ gap' ++ trail, isWhiteSpace c = true)
      (hne : iterable ≠ "") (hline : '\n' ∉ iterable.toList)
      (htrim : Text.trimString iterable = iterable)

namespace LoopDefinition

variable {ctx : Context} {ds : List Declaration} {iterable definition : String}

/-- A definition is divided into the declarations and the iterable that it spells. -/
theorem Spelled.divide (h : Spelled ds iterable definition) (hlegible : ∀ d ∈ ds, d.Legible) :
    ∃ declared, Declaration.SpellsAll ds declared ∧ iterable ≠ "" ∧
      divide definition.toList = some (trim declared, iterable.toList) := by
  obtain ⟨hdefinition, hdeclared, hword, hgap, hgap', hspace, hne, hline, htrim⟩ := h
  rename_i lead declared gap word gap' trail
  refine ⟨declared, hdeclared, hne, ?_⟩
  simp only [List.forall_mem_append] at hspace
  obtain ⟨⟨⟨hlead, hgaps⟩, hgaps'⟩, htrail⟩ := hspace
  obtain ⟨before, after, heq, hbefore, hafter⟩ := Text.exists_trim declared
  have hiterable : trim (gap' ++ (iterable.toList ++ trail)) = iterable.toList := by
    rw [Text.trim_pad hgaps' htrail]
    simpa [Text.trimString] using congrArg String.toList htrim
  have hrest : afterSeparator? ((after ++ gap) ++ (word ++ (gap' ++ (iterable.toList ++ trail)))) =
      some iterable.toList := by
    refine afterSeparator?_eq_some.2 ⟨after ++ gap, word, gap' ++ (iterable.toList ++ trail), rfl,
      by simp [hgap], List.forall_mem_append.2 ⟨hafter, hgaps⟩, hword, ?_, hiterable.symm, hline⟩
    obtain ⟨c, gap', rfl⟩ := List.exists_cons_of_ne_nil hgap'
    exact hgaps' c List.mem_cons_self
  obtain ⟨c, hc, hspace⟩ := hdeclared.getLast? hlegible
  have hlast := Text.getLast?_trim hc hspace
  have hdivide : LoopDefinition.divide ((lead ++ before) ++ (trim declared ++ _)) = _ := divide_append
    (List.forall_mem_append.2 ⟨hlead, hbefore⟩) (fun hempty => by simp [hempty] at hlast)
    (fun hmem => hdeclared.line hlegible (heq ▸ by simp [hmem]))
    (fun _ => Text.not_isWhiteSpace_head?_trim) (fun _ => Text.not_isWhiteSpace_getLast?_trim)
    (fun w hw hstands => hdeclared.not_stands hlegible hw
      ((Text.stands_trim hw.ne_nil hw.not_isWhiteSpace).1 hstands)) hrest
  have htext : definition.toList = (lead ++ before) ++ (trim declared ++
      ((after ++ gap) ++ (word ++ (gap' ++ (iterable.toList ++ trail))))) := by
    rw [hdefinition]
    conv_lhs => rw [heq]
    simp
  rw [htext, hdivide]

/-- The variables are written in the output without their types. -/
theorem head_eq_heading {loop : LoopDefinition} {key : TypeRef} {types : List TypeRef}
    (htypes : Declaration.Declares ctx key ds types)
    (hdeclared : loop.declared = List.zipWith (fun d t => ⟨d.name, t, .loopLocal⟩) ds types) :
    loop.head = Declaration.heading ds := by
  rw [head, hdeclared]
  cases htypes <;> simp [Declaration.heading, Text.joinWith, String.append_assoc]

/-- The imports leave the type of texts alone unless they have its name, or what stands before the first
full stop of its name, as the simple name of something else. -/
theorem qualify_string_eq_iff (ctx : Context) : ctx.qualify .string = .string ↔
    (∀ q, ctx.imports.names.find? "java.lang.String" = some q → q = "java.lang.String") ∧
      (ctx.imports.names.find? "java.lang.String" = none →
        ∀ q, ctx.imports.names.find? "java" = some q → q = "java") := by
  have hqualify : ctx.qualify .string = .simple (ctx.imports.qualifyClass "java.lang.String") := rfl
  have hcut : Text.cutAtChar '.' "java.lang.String".toList =
      some ("java".toList, "lang.String".toList) := by decide
  have hname : ctx.qualify .string = .string ↔
      ctx.imports.qualifyClass "java.lang.String" = "java.lang.String" := by
    rw [hqualify]
    simp [TypeRef.string, TypeRef.simple, TypeRef.stringName]
  rw [hname, Imports.qualifyClass]
  cases ctx.imports.names.find? "java.lang.String" with
  | some q => simp
  | none =>
    simp only [hcut, Option.bind_eq_bind, Option.bind_some, String.ofList_toList]
    cases ctx.imports.names.find? "java" with
    | none => simp
    | some q =>
      have hdot : q ++ "." ++ "lang.String" = "java.lang.String" ↔ q = "java" := by
        have hright : "java.lang.String" = "java" ++ "." ++ "lang.String" := by decide
        rw [hright, String.append_assoc, String.append_assoc, String.append_left_inj]
      simp [hdot]

/-- A definition is read as the loop that it spells: up to three variables, of which the first states its
type. The type of a key that states none is subject to the imports. -/
theorem parse_of_spelled (ctx : Context) (h : Spelled ds iterable definition)
    (hlegible : ∀ d ∈ ds, d.Legible) (hcount : ds.length ≤ 3)
    (hvalue : ∃ d, ds.head? = some d ∧ d.type? ≠ none) :
    (∃ loop types, parse ctx definition = .ok loop ∧ loop.iterable = iterable ∧
      Declaration.Declares ctx (ctx.qualify .string) ds types ∧
      loop.declared = List.zipWith (fun d t => ⟨d.name, t, .loopLocal⟩) ds types ∧
      ∀ processed, loop.render processed = Declaration.heading ds ++ " in " ++ processed) ∧
    (ctx.qualify .string = .string ↔
      (∀ q, ctx.imports.names.find? "java.lang.String" = some q → q = "java.lang.String") ∧
        (ctx.imports.names.find? "java.lang.String" = none →
          ∀ q, ctx.imports.names.find? "java" = some q → q = "java")) := by
  refine ⟨?_, qualify_string_eq_iff ctx⟩
  obtain ⟨types, htypes⟩ :=
    Declaration.exists_declares ctx (ctx.qualify .string) hlegible hcount hvalue
  obtain ⟨declared, hdeclared, hne, hdivide⟩ := h.divide hlegible
  obtain ⟨vs, hvs, hmap⟩ := htypes.readVariables hlegible (hdeclared.declarations hlegible)
  have hread : read definition.toList = .ok (vs, iterable.toList) :=
    read_eq_ok.2 ⟨trim declared, hdivide, by simpa using hne, by rwa [Text.trim_trim]⟩
  refine ⟨_, types, parse_eq_ok.2 ⟨vs, iterable.toList, hread, rfl⟩, String.ofList_toList, htypes,
    hmap, ?_⟩
  intro processed
  rw [render, head_eq_heading htypes hmap]

/-- A type with commas and blanks in it, a key and an index without types, and an iterable in which
separators stand. -/
theorem parse_of_spelled_nested :
    let ds : List Declaration := [⟨some "Map<String, List<Todo[]> >", "m"⟩, ⟨none, "k"⟩, ⟨none, "i"⟩]
    let ctx := ({} : Context).addImport "com.example.Todo"
    let definition := "\n( Map<String, List<Todo[]> >\tm ,k, i)\nof  a in (b, of c) "
    Spelled ds "a in (b, of c)" definition ∧ (∀ d ∈ ds, d.Legible) ∧
    (∃ loop types, parse ctx definition = .ok loop ∧ loop.iterable = "a in (b, of c)" ∧
      Declaration.Declares ctx (ctx.qualify .string) ds types ∧
      loop.declared = List.zipWith (fun d t => ⟨d.name, t, .loopLocal⟩) ds types ∧
      ∀ processed, loop.render processed = Declaration.heading ds ++ " in " ++ processed) ∧
    (ctx.qualify .string = .string ↔
      (∀ q, ctx.imports.names.find? "java.lang.String" = some q → q = "java.lang.String") ∧
        (ctx.imports.names.find? "java.lang.String" = none →
          ∀ q, ctx.imports.names.find? "java" = some q → q = "java")) := by
  intro ds ctx definition
  have hvalue := @Declaration.spellsPiece_of_type "Map<String, List<Todo[]> >" "m" [' '] ['\t'] [' ']
    (by decide) (by decide) (by decide)
  have hkey := @Declaration.spellsPiece_of_name "k" [] [] (by decide)
  have hindex := @Declaration.spellsPiece_of_name "i" [' '] [] (by decide)
  have hdeclared := Declaration.SpellsAll.several (by decide)
    (.cons hvalue (.cons hkey (.cons hindex .nil)))
  have hspelled : Spelled ds "a in (b, of c)" definition :=
    @Spelled.mk _ _ _ ['\n'] _ ['\n'] ['o', 'f'] [' ', ' '] [' '] (by decide +kernel) hdeclared
      (by decide) (by decide) (by decide) (List.all_eq_true.1 (by decide)) (by decide) (by decide)
      (by decide +kernel)
  have hlegible : ∀ d ∈ ds, d.Legible := by
    refine List.forall_mem_cons.2 ⟨⟨by decide +kernel, ?_, by decide +kernel⟩, ?_⟩
    · rintro _ ⟨⟩
      exact ⟨by decide, .named "Map" [.simple "String", .named "List" [.named "Todo" [] 1] 0] 0,
        by decide +kernel⟩
    · simp only [List.forall_mem_cons]
      exact ⟨Declaration.legible_of_name (by decide +kernel) (by decide),
        Declaration.legible_of_name (by decide +kernel) (by decide), nofun⟩
  exact ⟨hspelled, hlegible,
    parse_of_spelled ctx hspelled hlegible (by decide) ⟨_, rfl, by decide⟩⟩

/-- An import of a class called `java` renames the type of a key that states none. -/
theorem exists_key_not_string :
    ¬ ∀ ctx ds iterable definition, Spelled ds iterable definition → (∀ d ∈ ds, d.Legible) →
      ds.length ≤ 3 → (∃ d, ds.head? = some d ∧ d.type? ≠ none) →
      ∃ loop types, parse ctx definition = .ok loop ∧ Declaration.Declares ctx .string ds types ∧
        loop.declared = List.zipWith (fun d t => ⟨d.name, t, .loopLocal⟩) ds types := by
  intro hall
  have hvalue := @Declaration.spellsPiece_of_type "String" "v" [] [' '] [] (by decide) (by decide)
    (by decide)
  have hkey := @Declaration.spellsPiece_of_name "k" [' '] [] (by decide)
  have hindex := @Declaration.spellsPiece_of_name "i" [' '] [] (by decide)
  have hdeclared := Declaration.SpellsAll.several (by decide)
    (.cons hvalue (.cons hkey (.cons hindex .nil)))
  have hspelled : Spelled _ "m" "(String v, k, i) in m" :=
    @Spelled.mk _ _ _ [] _ [' '] ['i', 'n'] [' '] [] (by decide +kernel) hdeclared
      (by decide) (by decide) (by decide) (List.all_eq_true.1 (by decide)) (by decide) (by decide)
      (by decide +kernel)
  have hlegible : ∀ d ∈ [(⟨some "String", "v"⟩ : Declaration), ⟨none, "k"⟩, ⟨none, "i"⟩],
      d.Legible := by
    refine List.forall_mem_cons.2 ⟨⟨by decide +kernel, ?_, by decide +kernel⟩, ?_⟩
    · rintro _ ⟨⟩
      exact ⟨by decide, .simple "String", by decide +kernel⟩
    · simp only [List.forall_mem_cons]
      exact ⟨Declaration.legible_of_name (by decide +kernel) (by decide),
        Declaration.legible_of_name (by decide +kernel) (by decide), nofun⟩
  obtain ⟨loop, types, hparse, htypes, hloop⟩ := hall (({} : Context).addImport "com.example.java")
    _ _ _ hspelled hlegible (by decide) ⟨_, rfl, by decide⟩
  have hactual : parse (({} : Context).addImport "com.example.java") "(String v, k, i) in m" = .ok
      { declared := [⟨"v", .simple "String", .loopLocal⟩,
          ⟨"k", .simple "com.example.java.lang.String", .loopLocal⟩, ⟨"i", .int, .loopLocal⟩]
        iterable := "m", iterableType := .dynamic } := by decide +kernel
  obtain rfl := Except.ok.inj (hactual.symm.trans hparse)
  cases htypes with
  | keyed h hsecond hindex =>
    obtain rfl := Option.some.inj hsecond
    have hkeyType : TypeRef.simple "com.example.java.lang.String" = .string :=
      congrArg Variable.type (List.cons.inj (List.cons.inj hloop).2).1
    exact absurd hkeyType (by decide)

end LoopDefinition

end Stencil
