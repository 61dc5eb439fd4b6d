import Stencil.Proofs.Loop.TypeText

/-!
# Declarations of loop variables

How one variable is declared: its type, blanks and its name, or only the name (`Declaration.Spells`).
What is written so is read as that variable (`Spells.readVariable`), with the type that it states or
the default of its place.

A definition finds its declarations before it reads them, by characters only, so three things have to
be known of the text of one. No separator stands in it (`Spells.not_stands`), it has one line
(`Spells.line`), and the search for commas passes over it (`Spells.passes`), whatever commas its type
has. The last one is from Proofs/Loop/TypeText, where the text of a type is compared with its tokens
(`Legible.exists_tokens`).

The type and the name are told apart from the end: the last run of characters of an identifier is the
name (`typeAndName_typed`), so blanks in the type do no harm.

**What it does not establish.** No identifier of a declaration may be a separator (`Legible`), and the
type must be one that is accepted; other texts are not looked at.
-/

namespace Stencil

open Text (isBlank isWhiteSpace isIdentifier isIdentifierPart trim Stands)
open LoopDefinition (IsSeparator Passes typeAndName readVariable)

/-- A variable as a definition declares it: its type, which may be left out, and its name. -/
structure Declaration where
  type? : Option String
  name : String
  deriving DecidableEq, Repr

/-- The name that a lexeme is, if it is an identifier. -/
def Lexeme.name? : Lexeme → Option String
  | .identifier name => some name
  | _ => none

namespace Declaration

/-- The identifiers of the declaration, those of its type included. -/
def identifiers (d : Declaration) : List String :=
  match d.type? with
  | some text => d.name :: (Token.read (Text.trimString text)).1.filterMap (·.lexeme.name?)
  | none => [d.name]

/-- The declaration can stand in a definition: its type is one and has one line, its name is spelled
like an identifier, and none of its identifiers is a separator. -/
structure Legible (d : Declaration) : Prop where
  name : isIdentifier d.name.toList = true
  type : ∀ text, d.type? = some text → '\n' ∉ text.toList ∧ ∃ t, TypeRef.ofText text = .ok t
  free : ∀ n ∈ d.identifiers, ¬ IsSeparator n.toList

/-- A declaration without a type. -/
theorem legible_of_name {name : String} (hname : isIdentifier name.toList = true)
    (hfree : ¬ IsSeparator name.toList) : Legible ⟨none, name⟩ :=
  ⟨hname, nofun, List.forall_mem_singleton.2 hfree⟩

/-- The type of the variable in a context; `default` if the declaration states none. -/
def HasType (ctx : Context) (d : Declaration) (default : Option TypeRef) (t : TypeRef) : Prop :=
  match d.type? with
  | some text => ∃ u, TypeRef.ofText text = .ok u ∧ t = ctx.qualify u
  | none => default = some t

/-- The text is the declaration: the type, blanks and the name, or only the name. -/
inductive Spells : Declaration → List Char → Prop
  | typed {type name : String} {gap : List Char} (hgap : gap ≠ [])
      (hblank : ∀ c ∈ gap, isBlank c = true) (hline : '\n' ∉ gap) :
      Spells ⟨some type, name⟩ (type.toList ++ (gap ++ name.toList))
  | untyped {name : String} : Spells ⟨none, name⟩ name.toList

variable {d : Declaration} {cs w : List Char}

/-! ## The parts of a declaration -/

/-- What ends in a name ends in a character of identifiers. -/
theorem getLast?_append_name (front : List Char) {name : List Char} (hname : isIdentifier name = true) :
    ∃ c, (front ++ name).getLast? = some c ∧ isIdentifierPart c = true := by
  have hne : name ≠ [] := by
    rintro rfl
    cases hname
  have hlast := List.getLast?_eq_some_getLast hne
  refine ⟨_, by rw [List.getLast?_append_of_ne_nil front hne, hlast], ?_⟩
  exact Text.isIdentifierPart_of_isIdentifier hname _ (List.mem_of_getLast? hlast)

/-- A name has nothing to trim. -/
theorem trim_of_isIdentifier {name : List Char} (hname : isIdentifier name = true) :
    trim name = name := by
  have hspace := Text.not_isWhiteSpace_of_isIdentifier hname
  exact Text.trim_eq_self (fun c hc => hspace c (List.mem_of_head? hc))
    fun c hc => hspace c (List.mem_of_getLast? hc)

/-- A type and a name are told apart at the blanks in front of the name. -/
theorem typeAndName_typed {type gap name : List Char} (hname : isIdentifier name = true)
    (hgap : gap ≠ []) (hblank : ∀ c ∈ gap, isBlank c = true) (hne : trim type ≠ []) :
    typeAndName (type ++ (gap ++ name)) = (trim type, name) := by
  obtain ⟨before, after, htype, hbefore, hafter⟩ := Text.exists_trim type
  have hparts := Text.isIdentifierPart_of_isIdentifier hname
  have hspaces : ∀ c ∈ after ++ gap, isWhiteSpace c = true := fun c hc =>
    (List.mem_append.1 hc).elim (hafter c) fun hc => Text.isWhiteSpace_of_isBlank (hblank c hc)
  have htrim : trim (type ++ (gap ++ name)) = (trim type ++ (after ++ gap)) ++ name := by
    have heq : type ++ (gap ++ name) = before ++ (((trim type ++ (after ++ gap)) ++ name) ++ []) := by
      conv_lhs => rw [htype]
      simp
    rw [heq, Text.trim_pad hbefore (by simp), Text.trim_eq_self]
    · intro c hc
      rw [List.append_assoc, List.head?_append_of_ne_nil _ hne] at hc
      exact Text.not_isWhiteSpace_head?_trim hc
    · intro c hc
      obtain ⟨e, he, hpart⟩ := getLast?_append_name (trim type ++ (after ++ gap)) hname
      obtain rfl : e = c := Option.some.inj (he.symm.trans hc)
      exact Text.not_isWhiteSpace_of_isIdentifierPart hpart
  -- the last blank is the one in front of the name
  have htake : (((trim type ++ (after ++ gap)) ++ name).reverse.takeWhile fun c => !isBlank c) =
      name.reverse := by
    rw [List.reverse_append]
    refine Text.takeWhile_run (fun c hc => ?_) fun c hc => ?_
    · simpa using Token.not_isBlank_of_isIdentifierPart (hparts c (List.mem_reverse.1 hc))
    · rw [List.head?_reverse, ← List.append_assoc, List.getLast?_append_of_ne_nil _ hgap] at hc
      simp [hblank c (List.mem_of_getLast? hc)]
  have htype' : trim (trim type ++ (after ++ gap)) = trim type := by
    rw [← List.nil_append (trim type ++ _), Text.trim_pad (by simp) hspaces, Text.trim_trim]
  rw [typeAndName, htrim]
  simp only [htake, List.reverse_reverse, List.length_append, Nat.add_sub_cancel,
    trim_of_isIdentifier hname]
  rw [← List.length_append, ← List.length_append, List.take_left, htype']

/-- A name alone has no type in front of it. -/
theorem typeAndName_untyped {name : List Char} (hname : isIdentifier name = true) :
    typeAndName name = ([], name) := by
  have hparts := Text.isIdentifierPart_of_isIdentifier hname
  have htake : (name.reverse.takeWhile fun c => !isBlank c) = name.reverse := by
    refine List.takeWhile_eq_self_iff.2 fun c hc => ?_
    simpa using Token.not_isBlank_of_isIdentifierPart (hparts c (List.mem_reverse.1 hc))
  rw [typeAndName, trim_of_isIdentifier hname]
  simp only [htake, List.reverse_reverse, Nat.sub_self, List.take_zero, trim_of_isIdentifier hname]
  rfl

/-! ## A declaration -/

/-- The tokens of a type that a declaration states, and that no separator is one of them. -/
theorem Legible.exists_tokens {text : String} (h : d.Legible) (htype : d.type? = some text) :
    trim text.toList ≠ [] ∧ ∃ ts, Token.Pieces (trim text.toList) ts ∧
      (∀ k, Token.angles k ts = some k) ∧
      ∀ w, IsSeparator w → ∀ t ∈ ts, t.lexeme ≠ .identifier (String.ofList w) := by
  obtain ⟨-, t, ht⟩ := h.type text htype
  obtain ⟨ts, hne, hread, hangles⟩ := TypeRef.exists_tokens_of_ofText ht
  have hpieces : Token.Pieces (trim text.toList) ts := by
    rw [Token.read, Text.trimString, String.toList_ofList] at hread
    exact Token.pieces_of_readFrom hread
  refine ⟨?_, ts, hpieces, hangles, ?_⟩
  · intro hempty
    rw [Token.read, Text.trimString, String.toList_ofList, hempty, Token.readFrom_nil] at hread
    exact hne (Prod.mk.inj hread).1.symm
  · intro w hw t ht hlexeme
    have hmem : String.ofList w ∈ d.identifiers := by
      rw [identifiers, htype]
      refine List.mem_cons_of_mem _ (List.mem_filterMap.2 ⟨t, ?_, ?_⟩)
      · rw [hread]
        exact ht
      · rw [hlexeme]
        rfl
    exact h.free _ hmem (by rwa [String.toList_ofList])

/-- The name of a declaration is one of its identifiers. -/
theorem name_mem_identifiers (d : Declaration) : d.name ∈ d.identifiers := by
  rw [identifiers]
  split
  · exact List.mem_cons_self
  · exact List.mem_cons_self

/-- No separator stands in a declaration. -/
theorem Spells.not_stands (h : d.Spells cs) (hlegible : d.Legible) (hw : IsSeparator w) :
    ¬ Stands w cs := by
  intro hstands
  have hname : ¬ Stands w d.name.toList := fun hstands => by
    have heq := hstands.eq_of_forall (Text.not_isWhiteSpace_of_isIdentifier hlegible.name)
    exact hlegible.free d.name d.name_mem_identifiers (heq ▸ hw)
  cases h with
  | untyped => exact hname hstands
  | @typed type name gap hgap hblank hline =>
    have hgaps : ∀ c ∈ gap, c ∉ w := fun c hc => hw.not_mem (Text.isWhiteSpace_of_isBlank (hblank c hc))
    rcases hstands.append hgaps hw.ne_nil hgap with hstands | hstands
    · obtain ⟨-, ts, hpieces, hangles, hfree⟩ := hlegible.exists_tokens rfl
      have hword : isIdentifier w = true ∧
          Token.wordLexeme (String.ofList w) = .identifier (String.ofList w) := by
        rcases hw with rfl | rfl <;> decide +kernel
      obtain ⟨t, ht, hlexeme⟩ := hpieces.exists_of_stands (hangles 0) hword.1
        ((Text.stands_trim hw.ne_nil hw.not_isWhiteSpace).2 hstands)
      exact hfree w hw t ht (hlexeme.trans hword.2)
    · exact hname hstands

/-- The search for commas passes over a declaration. -/
theorem Spells.passes (h : d.Spells cs) (hlegible : d.Legible) : Passes 0 cs 0 := by
  have hname : Passes 0 d.name.toList 0 := LoopDefinition.passes_of_isIdentifier hlegible.name
  cases h with
  | untyped => exact hname
  | @typed type name gap hgap hblank hline =>
    obtain ⟨-, ts, hpieces, hangles, -⟩ := hlegible.exists_tokens rfl
    obtain ⟨before, after, htype, hbefore, hafter⟩ := Text.exists_trim type.toList
    have hpassed : Passes 0 type.toList 0 := by
      rw [htype]
      exact (LoopDefinition.passes_of_isWhiteSpace hbefore).append
        ((hpieces.passes (hangles 0)).append (LoopDefinition.passes_of_isWhiteSpace hafter))
    have hgap : Passes 0 gap 0 :=
      LoopDefinition.passes_of_isWhiteSpace fun c hc => Text.isWhiteSpace_of_isBlank (hblank c hc)
    exact hpassed.append (hgap.append hname)

/-- A declaration has one line. -/
theorem Spells.line (h : d.Spells cs) (hlegible : d.Legible) : '\n' ∉ cs := by
  have hname : '\n' ∉ d.name.toList := fun hmem => by
    have hpart := Text.isIdentifierPart_of_isIdentifier hlegible.name _ hmem
    revert hpart
    decide +kernel
  cases h with
  | untyped => exact hname
  | typed hgap hblank hline =>
    simp only [List.mem_append, not_or]
    exact ⟨(hlegible.type _ rfl).1, hline, hname⟩

/-- A declaration ends in its name. -/
theorem Spells.getLast? (h : d.Spells cs) (hlegible : d.Legible) :
    ∃ c, cs.getLast? = some c ∧ isIdentifierPart c = true := by
  cases h with
  | untyped => exact getLast?_append_name [] hlegible.name
  | @typed type name gap hgap hblank hline =>
    rw [← List.append_assoc]
    exact getLast?_append_name (type.toList ++ gap) hlegible.name

/-- A declaration is read as the variable with its name and its type. -/
theorem Spells.readVariable {ctx : Context} {default : Option TypeRef} {t : TypeRef}
    {piece : List Char} (h : d.Spells cs) (hlegible : d.Legible) (hpiece : trim piece = trim cs)
    (ht : d.HasType ctx (default.map ctx.qualify) t) :
    ∃ u, readVariable default piece = .ok (d.name, u) ∧ t = ctx.qualify u := by
  have hparts : typeAndName piece = typeAndName cs := by rw [typeAndName, typeAndName, hpiece]
  cases h with
  | untyped =>
    obtain ⟨u, rfl, rfl⟩ := Option.map_eq_some_iff.1 ht
    refine ⟨u, LoopDefinition.readVariable_eq_ok.2 ?_, rfl⟩
    rw [hparts, typeAndName_untyped hlegible.name, String.ofList_toList]
    exact ⟨hlegible.name, rfl, .inl ⟨rfl, rfl⟩⟩
  | @typed type name gap hgap hblank hline =>
    obtain ⟨u, hu, rfl⟩ := ht
    obtain ⟨hne, -⟩ := hlegible.exists_tokens rfl
    refine ⟨u, LoopDefinition.readVariable_eq_ok.2 ?_, rfl⟩
    rw [hparts, typeAndName_typed hlegible.name hgap hblank hne, String.ofList_toList]
    refine ⟨hlegible.name, rfl, .inr ⟨hne, ?_⟩⟩
    rwa [TypeRef.ofText, Text.trimString, String.toList_ofList, Text.trim_trim]

end Declaration

end Stencil
