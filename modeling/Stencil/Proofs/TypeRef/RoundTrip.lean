import Stencil.Proofs.Token.Front
import Stencil.Proofs.TypeRef.Reading
import Stencil.Proofs.TypeRef.Written

/-!
# Reading printed types

**The law** (`ofText_print`): a type that was read from some text is printed as a text that is read as
the same type again, with one exception, which the law states exactly: `Any` with empty angle
brackets.

A class that is called `Any` shares its text with the type of which nothing is known. A declaration
that writes `Any` means the latter, so the class is read from empty angle brackets behind its name
only (`eq_of_bracketsAny`), and the printer leaves those out. `exists_print_read_differently` is the
case.

Three facts carry it. A text is read as a type if its tokens are one (`parse_eq_ok`, from
Proofs/TypeRef/Reading). The printed text is read as lexemes that spell the type
(`Derives.readFrom_print`, from Proofs/TypeRef/Written), and such lexemes are the type. And as
declarations are trimmed, a printed type must have no white space at its ends (`Derives.trim_print`):
it starts with a word and ends with a word or a bracket.

**What it does not establish.** The printed text need not be the one that was read: blanks and empty
angle brackets are lost.
-/

namespace Stencil.TypeRef

open Token (IsName)
open Written (Spells texts)

variable {t : TypeRef} {ts ds : List Token} {name full text : String} {dims : Nat}

/-- A text is read as a type if its tokens are one. -/
theorem parse_eq_ok : parse text = .ok t ↔
    ∃ ts, Token.readFrom text.utf8ByteSize text.toList = (ts, none) ∧ Derives ts t := by
  rw [parse, Token.readAll, Token.read]
  -- Forth by the soundness of the reader, back by its completeness; behind the last token nothing
  -- continues a type.
  constructor
  · intro h
    split at h
    · cases h
    · next tokens hread =>
      split at hread
      · next heq =>
        obtain rfl := Except.ok.inj hread
        refine ⟨_, heq, ?_⟩
        split at h
        · cases h
        · next type c hok =>
          obtain ⟨us, htakes, hderives, -⟩ := parser_sound _ _ _ _ hok
          split at h
          · next hrest =>
            obtain rfl := Except.ok.inj h
            have htokens := htakes.tokens
            rw [hrest, List.append_nil] at htokens
            obtain rfl : _ = us := htokens
            exact hderives
          · cases h
      · cases hread
  · rintro ⟨ts, hread, h⟩
    have htakes : (Cursor.ofTokens ts).Takes ts ⟨[], Token.endOf 0 ts⟩ :=
      ⟨(List.append_nil ts).symm, rfl⟩
    have hok : TypeRef.read (Cursor.ofTokens ts) = .ok (t, ⟨[], Token.endOf 0 ts⟩) :=
      parser_complete _ _ ts t _ (Nat.le_succ _) htakes h nofun nofun fun _ => nofun
    rw [hread]
    simp only [hok]

/-! ## The ends of a printed type -/

/-- The text ends with a character that is no white space. -/
def EndsInk (s : String) : Prop := ∃ c, s.toList.getLast? = some c ∧ Text.isWhiteSpace c = false

/-- What stands in front does not change the end. -/
theorem endsInk_append {s : String} (front : String) (h : EndsInk s) : EndsInk (front ++ s) := by
  obtain ⟨c, hc, hspace⟩ := h
  refine ⟨c, ?_, hspace⟩
  rw [String.toList_append, List.getLast?_append, hc]
  rfl

/-- Dimensions behind a text leave no white space at its end. -/
theorem EndsInk.dimsText {s : String} (h : EndsInk s) (dims : Nat) :
    EndsInk (s ++ TypeRef.dimsText dims) := by
  induction dims generalizing s with
  | zero => rwa [TypeRef.dimsText, String.append_empty]
  | succ dims ih =>
    rw [TypeRef.dimsText, ← String.append_assoc]
    exact ih (endsInk_append s ⟨']', rfl, by decide⟩)

/-- A word has no white space at its end. -/
theorem endsInk_of_isIdentifier {s : String} (h : Text.isIdentifier s.toList = true) :
    EndsInk s := by
  cases hlast : s.toList.getLast? with
  | none =>
    rw [List.getLast?_eq_none_iff.1 hlast] at h
    cases h
  | some c =>
    exact ⟨c, hlast, Text.not_isWhiteSpace_of_isIdentifier h c (List.mem_of_getLast? hlast)⟩

/-- A name with full stops has no white space at its end. -/
theorem Dotted.endsInk (h : Dotted name ts full) (hname : EndsInk name)
    (hvalid : ∀ t ∈ ts, t.lexeme.Valid) : EndsInk full := by
  induction h with
  | stop => exact hname
  | @dot name part full ts s₁ s₂ h ih =>
    have hpart : IsName part := hvalid ⟨.identifier part, s₂⟩ (by simp)
    exact ih (endsInk_append _ (endsInk_of_isIdentifier hpart.1)) fun t ht => hvalid t (by simp [ht])

/-- A reserved word has no white space at its end. -/
theorem endsInk_of_typeName? {word : Keyword} (h : word.typeName? = some name) : EndsInk name := by
  have htext : word.text = name := by
    cases word with
    | primitive | voidType => exact Option.some.inj h
    | _ => cases h
  exact htext ▸ endsInk_of_isIdentifier word.isIdentifier_text

/-- A printed type has no white space at its end. -/
theorem Derives.endsInk_print (h : Derives ts t) (hvalid : ∀ token ∈ ts, token.lexeme.Valid) :
    EndsInk t.print := by
  have hclass {name full : String} {us : List Token} (span : Span) (hdotted : Dotted name us full)
      (hvalid : ∀ token ∈ ⟨.identifier name, span⟩ :: us, token.lexeme.Valid) : EndsInk full := by
    have hname : IsName name := hvalid ⟨.identifier name, span⟩ (by simp)
    exact hdotted.endsInk (endsInk_of_isIdentifier hname.1) fun t ht => hvalid t (by simp [ht])
  cases h with
  | primitive span hword hdims => exact (endsInk_of_typeName? hword).dimsText _
  | plain span hdotted hdims =>
    exact (hclass span hdotted fun t ht => hvalid t (by
      rcases List.mem_cons.1 ht with rfl | ht <;> simp_all)).dimsText _
  | diamond span s₁ s₂ hdotted hdims =>
    exact (hclass span hdotted fun t ht => hvalid t (by
      rcases List.mem_cons.1 ht with rfl | ht <;> simp_all)).dimsText _
  | generic span s₁ s₂ hdotted hne hjoined hparts hdims =>
    rw [print]
    · exact EndsInk.dimsText (endsInk_append _ ⟨'>', rfl, by decide⟩) _
    · simpa using hne

/-- A printed type has no white space at its ends. -/
theorem Derives.trim_print (h : Derives ts t) (hvalid : ∀ token ∈ ts, token.lexeme.Valid) :
    Text.trimString t.print = t.print := by
  apply String.toList_injective
  rw [Text.trimString, String.toList_ofList]
  apply Text.trim_eq_self
  · intro c hc
    obtain ⟨u, us, vs, -, hwritten, hword⟩ := h.front hvalid
    obtain ⟨d, ds, hspelling, -⟩ := Written.exists_of_isIdentifier hword
    rw [← texts_written, hwritten, Written.texts_cons, Written.text, hspelling] at hc
    obtain rfl : d = c := Option.some.inj hc
    exact Text.not_isWhiteSpace_of_isIdentifier hword d (by simp [hspelling])
  · intro c hc
    obtain ⟨d, hd, hspace⟩ := h.endsInk_print hvalid
    obtain rfl : d = c := Option.some.inj (hd.symm.trans hc)
    exact hspace

/-! ## The round trip -/

/-- The printed text is read as lexemes that spell it. -/
theorem Derives.readFrom_print (h : Derives ts t) (hvalid : ∀ token ∈ ts, token.lexeme.Valid) :
    ∃ us, Token.readFrom t.print.utf8ByteSize t.print.toList = (us, none) ∧
      Spells t.written us := by
  obtain ⟨us, hread, hspells, -⟩ := Written.readFrom_texts t.print.utf8ByteSize
    (h.readable hvalid (by simp [Written.Ends])) (not_clash_written [] t)
  rw [texts_written] at hread
  exact ⟨us, hread, hspells⟩

/-- A printed type is read as the type by the reader of tokens, which knows no exception. -/
theorem Derives.parse_print (h : Derives ts t) (hvalid : ∀ token ∈ ts, token.lexeme.Valid) :
    parse t.print = .ok t := by
  obtain ⟨us, hread, hspells⟩ := h.readFrom_print hvalid
  exact parse_eq_ok.2 ⟨us, hread, h.of_spells hvalid hspells⟩

/-- A type that is printed as one lexeme is read from that lexeme, or it is a class and empty angle
brackets stand behind it. -/
theorem Derives.of_written_singleton {l : Lexeme} (h : Derives ts t)
    (hvalid : ∀ token ∈ ts, token.lexeme.Valid) (hl : t.written.map (·.lexeme) = [l]) :
    ts.map (·.lexeme) = [l] ∨ ∃ name, l = .identifier name ∧ t = simple name ∧
      ts.map (·.lexeme) = [.identifier name, .sign .less, .sign .greater] := by
  cases h with
  | @primitive word name ds dims span hword hdims =>
    rw [written, nameWritten_of_typeName? hword, hdims.dimsWritten_eq] at hl
    exact .inl (by simpa using hl)
  | @plain name full ts ds dims span hname hdims =>
    have hfull := hname.nameWritten_full span (hvalid _ (by simp)) fun t ht => hvalid t (by simp [ht])
    rw [written, hfull, hdims.dimsWritten_eq] at hl
    exact .inl (by simpa using hl)
  | @diamond name full ts ds dims span s₁ s₂ hname hdims =>
    have hfull := hname.nameWritten_full span (hvalid _ (by simp)) fun t ht => hvalid t (by simp [ht])
    rw [written, hfull, hdims.dimsWritten_eq] at hl
    obtain ⟨hword, rfl, rfl⟩ : .identifier name = l ∧ ts = [] ∧ ds = [] := by
      simpa [unspaced] using hl
    cases hname
    cases hdims
    exact .inr ⟨name, hword.symm, rfl, rfl⟩
  | @generic name full ts us ds parts dims span s₁ s₂ hname hne hjoined hparts hdims =>
    rw [written_generic (by simpa using hne), List.map_append, List.map_cons] at hl
    obtain ⟨k, vs, hfront⟩ := fronted_nameWritten full
    rw [hfront] at hl
    simp at hl

/-- The text is `Any` with empty angle brackets behind it. -/
def BracketsAny (text : String) : Prop :=
  (Token.read (Text.trimString text)).1.map (·.lexeme) =
    [.identifier "Any", .sign .less, .sign .greater]

instance (text : String) : Decidable (BracketsAny text) := inferInstanceAs (Decidable (_ = _))

/-- A trimmed text that is read as one word is the word. -/
theorem eq_of_readFrom_trim {l : Lexeme} (hl : l.IsWord)
    (hread : Token.readFrom (Text.trimString text).utf8ByteSize (Text.trimString text).toList =
      (ts, none)) (hts : ts.map (·.lexeme) = [l]) :
    Text.trimString text = String.ofList l.spelling := by
  obtain ⟨token, rfl, htoken⟩ := List.map_eq_singleton_iff.1 hts
  obtain ⟨k, span⟩ := token
  obtain rfl : k = l := htoken
  have hword := Token.eq_spelling_of_readFrom hl
    (fun c hc => Text.isBlank_of_not_isWhiteSpace
      (Text.not_isWhiteSpace_head?_trim (by simpa [Text.trimString] using hc)))
    (fun c hc => Text.isBlank_of_not_isWhiteSpace
      (Text.not_isWhiteSpace_getLast?_trim (by simpa [Text.trimString] using hc)))
    hread
  rw [← hword, String.ofList_toList]

/-- Only the class `Any` is read from `Any` with empty angle brackets. -/
theorem eq_of_bracketsAny (h : BracketsAny text) (hparse : parse (Text.trimString text) = .ok t) :
    t = simple "Any" := by
  obtain ⟨ts, hread, -⟩ := parse_eq_ok.1 hparse
  have hts : ts.map (·.lexeme) = [.identifier "Any", .sign .less, .sign .greater] := by
    rw [← h, Token.read, hread]
  obtain ⟨⟨l, s⟩, us, rfl, hl, hus⟩ := List.map_eq_cons_iff.1 hts
  obtain ⟨⟨l₁, s₁⟩, vs, rfl, hl₁, hvs⟩ := List.map_eq_cons_iff.1 hus
  obtain ⟨⟨l₂, s₂⟩, rfl, hl₂⟩ := List.map_eq_singleton_iff.1 hvs
  subst hl hl₁ hl₂
  have hany := parse_eq_ok.2 ⟨_, hread, Derives.diamond s s₁ s₂ (.stop "Any") .none⟩
  exact Except.ok.inj (hparse.symm.trans hany)

/-- A printed type that was read is read again as the same type, except for the class `Any`, which
only empty angle brackets tell from the type of which nothing is known. -/
theorem ofText_print (h : ofText text = .ok t) :
    ofText t.print = .ok (if BracketsAny text then .dynamic else t) ∧
      (BracketsAny text → t = simple "Any") := by
  rw [ofText] at h
  split at h
  · next hvoid =>
    obtain rfl := Except.ok.inj h
    have hnot : ¬ BracketsAny text := by
      rw [BracketsAny, hvoid]
      decide +kernel
    rw [if_neg hnot]
    exact ⟨by decide +kernel, fun hany => absurd hany hnot⟩
  · next hdynamic =>
    obtain rfl := Except.ok.inj h
    have hnot : ¬ BracketsAny text := by
      rw [BracketsAny, hdynamic]
      decide +kernel
    rw [if_neg hnot]
    exact ⟨by decide +kernel, fun hany => absurd hany hnot⟩
  · next other hnotVoid hnotAny =>
    obtain ⟨ts, hread, hts⟩ := parse_eq_ok.1 h
    have hvalid := Token.valid_of_read hread
    obtain ⟨us, hagain, hspells⟩ := hts.readFrom_print hvalid
    -- a type printed as one of the two words is read from that word and empty angle brackets
    have hword {l : Lexeme} (hl : l.IsWord) (hprint : us.map (·.lexeme) = [l]) :
        Text.trimString text = String.ofList l.spelling ∨
          ∃ name, l = .identifier name ∧ t = simple name ∧
            ts.map (·.lexeme) = [.identifier name, .sign .less, .sign .greater] :=
      (hts.of_written_singleton hvalid (hspells.lexemes.symm.trans hprint)).imp_left
        (eq_of_readFrom_trim hl hread)
    rw [ofText, hts.trim_print hvalid]
    split
    · next hvoid =>
      rw [hvoid] at hagain
      obtain rfl : us = (Token.read "void").1 := congrArg Prod.fst hagain.symm
      rcases hword (l := .keyword .voidType) trivial (by decide +kernel) with heq | ⟨_, hl, -⟩
      · exact absurd heq hnotVoid
      · cases hl
    · next hany =>
      rw [hany] at hagain
      obtain rfl : us = (Token.read "Any").1 := congrArg Prod.fst hagain.symm
      rcases hword (l := .identifier "Any") trivial (by decide +kernel) with heq | ⟨_, hl, rfl, hlex⟩
      · exact absurd heq hnotAny
      · obtain rfl := Lexeme.identifier.inj hl
        have hbrackets : BracketsAny text := by
          rw [BracketsAny, Token.read, hread]
          exact hlex
        rw [if_pos hbrackets]
        exact ⟨rfl, fun _ => rfl⟩
    · next hprint =>
      have hnot : ¬ BracketsAny text := by
        intro hbrackets
        rw [eq_of_bracketsAny hbrackets h] at hprint
        exact hprint rfl
      rw [if_neg hnot]
      exact ⟨hts.parse_print hvalid, fun hbrackets => absurd hbrackets hnot⟩

/-- A type with a wildcard, dimensions and empty angle brackets, printed and read again. -/
theorem ofText_print_of_arguments :
    let t := named "java.util.Map" [simple "?", .named "List" [] 2] 1
    ofText " java.util.Map<?,List<>[] [ ]>[]" = .ok t ∧
      t.print = "java.util.Map<?, List[][]>[]" ∧ ofText t.print = .ok t := by
  have htext : ofText " java.util.Map<?,List<>[] [ ]>[]" =
      .ok (named "java.util.Map" [simple "?", .named "List" [] 2] 1) := by decide +kernel
  have hnot : ¬ BracketsAny " java.util.Map<?,List<>[] [ ]>[]" := by decide +kernel
  have hagain := (ofText_print htext).1
  rw [if_neg hnot] at hagain
  exact ⟨htext, by decide +kernel, hagain⟩

/-- The class `Any` is printed as the type of which nothing is known. -/
theorem exists_print_read_differently :
    ¬ ∀ text t, ofText text = .ok t → ofText t.print = .ok t := by
  intro hall
  have htext : ofText "Any<>" = .ok (simple "Any") := by decide +kernel
  have hagain := hall _ _ htext
  have hdynamic : ofText (simple "Any").print = .ok .dynamic := by decide +kernel
  rw [hdynamic] at hagain
  cases hagain

end Stencil.TypeRef
