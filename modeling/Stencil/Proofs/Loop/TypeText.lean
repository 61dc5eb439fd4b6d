import Stencil.Proofs.Loop.Division
import Stencil.Proofs.Token.Coverage
import Stencil.Proofs.TypeRef.RoundTrip

/-!
# Types inside of declarations

A definition finds its declarations by characters only: it splits at the commas outside of angle
brackets and looks for separators between white space. The type in a declaration is read from tokens.
So what the tokens of a type are decides what the definition finds in its text: the angle brackets of
the tokens are those of the text, and a word that stands by itself is one of the tokens.

`Token.Pieces` lays a text out as the texts of its tokens with blanks between them, and both facts are
read off it. `Token.Pieces.passes`: the search for commas counts the angle brackets of the tokens.
`Token.Pieces.exists_of_stands`: a word that stands in the text is a token. Together with
`Derives.angles`, which says that the brackets of a type are closed in it and its commas stand between
them, the search passes over the text of a type and comes out where it went in.

`LoopDefinition.Passes` is this for any text, and texts that are passed over can be put together
(`Passes.append`), so pieces with commas between them are found again (`splitCommas_intercalate`).

**What it does not establish.** A text that is no type may have brackets that are not closed; nothing
is said of it.
-/

namespace Stencil

open Text (isBlank isWhiteSpace isIdentifierPart Stands)

variable {size d d' : Nat} {c : Char} {cs piece w : List Char} {l : Lexeme}
  {ts us : List Token}

/-! ## The pieces of a text -/

namespace Token

/-- The text is blanks and the pieces from which the tokens are read. -/
inductive Pieces : List Char → List Token → Prop
  | blanks {gap : List Char} (hgap : ∀ c ∈ gap, isBlank c = true) : Pieces gap []
  | token {gap piece rest tail : List Char} {c : Char} {t : Token} {ts : List Token}
      (hgap : ∀ c ∈ gap, isBlank c = true) (hpiece : piece ++ rest = c :: tail)
      (hstep : step c tail = .lexeme t.lexeme rest) (hwritten : t.lexeme.WrittenAs piece)
      (h : Pieces rest ts) : Pieces (gap ++ (piece ++ rest)) (t :: ts)

/-- A text that is read without an error is laid out as its tokens and blanks. -/
theorem pieces_of_readFrom (h : readFrom size cs = (ts, none)) : Pieces cs ts := by
  fun_induction readFrom size cs generalizing ts with
  | case1 cs hcs =>
    obtain ⟨rfl, -⟩ := Prod.mk.inj h
    exact .blanks (List.dropWhile_eq_nil_iff.1 hcs)
  | case2 cs c tail hcs lexeme rest hs span hshorter tokens error heq =>
    rename_i ih
    obtain ⟨rfl, rfl⟩ := Prod.mk.inj h
    obtain ⟨piece, hpiece, hwritten⟩ := Step.text_of_step hs
    rw [← List.takeWhile_append_dropWhile (p := isBlank) (l := cs), hcs, hpiece]
    exact .token (List.all_eq_true.1 List.all_takeWhile) hpiece.symm hs hwritten (ih heq)
  | case3 => cases (Prod.mk.inj h).2

end Token

/-! ## Angle brackets -/

/-- The number of open angle brackets behind an operator sign of a type, if there are `d` before it. -/
def Sign.angles (d : Nat) (s : Sign) : Option Nat :=
  if s = .less then some (d + 1)
  else if s = .greater then some (d - 1)
  else if s = .question then some d
  else none

/-- The number of open angle brackets behind a lexeme of a type, if there are `d` before it. A comma
stands between angle brackets only. -/
def Lexeme.angles (d : Nat) : Lexeme → Option Nat
  | .sign s => s.angles d
  | .punctuation c => if c = ',' ∧ d = 0 then none else some d
  | .identifier _ | .keyword _ => some d
  | .string _ | .character _ | .number _ => none

/-- The number of open angle brackets behind the tokens of a type. -/
def Token.angles (d : Nat) : List Token → Option Nat
  | [] => some d
  | t :: ts => (t.lexeme.angles d).bind fun d => angles d ts

/-- Brackets are counted over one list of tokens after the other. -/
theorem Token.angles_append : angles d (ts ++ us) = (angles d ts).bind fun d => angles d us := by
  induction ts generalizing d with
  | nil => rfl
  | cons t ts ih =>
    rw [List.cons_append, angles, angles]
    cases t.lexeme.angles d with
    | none => rfl
    | some d => exact ih

namespace TypeRef

open Token (angles)

/-- A dotted name has no brackets. -/
theorem Dotted.angles {name full : String} (h : Dotted name ts full) : angles d ts = some d := by
  induction h with
  | stop => rfl
  | dot s₁ s₂ _ ih => simpa [Token.angles, Lexeme.angles] using ih

/-- Dimensions have no angle brackets. -/
theorem Dims.angles {dims : Nat} (h : Dims ts dims) : angles d ts = some d := by
  induction h with
  | none => rfl
  | dim s₁ s₂ _ ih => simpa [Token.angles, Lexeme.angles] using ih

/-- Every angle bracket of a type is closed in it, and its commas stand between them. -/
theorem Derives.angles {t : TypeRef} (h : Derives ts t) : angles d ts = some d := by
  induction h generalizing d with
  | primitive span hword hdims => simpa [Token.angles, Lexeme.angles] using hdims.angles
  | plain span hname hdims =>
    simp [Token.angles, Lexeme.angles, Token.angles_append, hname.angles, hdims.angles]
  | diamond span s₁ s₂ hname hdims =>
    simp [Token.angles, Lexeme.angles, Sign.angles, Token.angles_append, hname.angles, hdims.angles]
  | @generic name full ts us ds parts dims span s₁ s₂ hname hne hjoined hparts hdims ih =>
    have hus : Token.angles (d + 1) us = some (d + 1) := by
      have hall : ∀ vs ∈ parts.map (·.1), Token.angles (d + 1) vs = some (d + 1) := by
        intro vs hvs
        obtain ⟨p, hp, rfl⟩ := List.mem_map.1 hvs
        by_cases hwild : IsWildcard p
        · obtain ⟨-, span, hp⟩ := hwild
          rw [hp]
          rfl
        · exact ih p hp hwild
      clear hparts ih hne
      generalize parts.map (·.1) = vss at hjoined hall
      induction hjoined with
      | none => rfl
      | one vs => exact hall vs List.mem_cons_self
      | more span _ ih =>
        have hrest := ih fun vs hvs => hall vs (List.mem_cons_of_mem _ hvs)
        simp [Token.angles_append, hall _ List.mem_cons_self, Token.angles, Lexeme.angles, hrest]
    simp [Token.angles, Lexeme.angles, Sign.angles, Token.angles_append, hname.angles, hdims.angles, hus]

/-- The tokens of a text that is accepted as a type. -/
theorem exists_tokens_of_ofText {text : String} {t : TypeRef} (h : ofText text = .ok t) :
    ∃ ts, ts ≠ [] ∧ Token.read (Text.trimString text) = (ts, none) ∧
      ∀ d, Token.angles d ts = some d := by
  rw [ofText] at h
  split at h
  · next hvoid =>
    rw [hvoid]
    exact ⟨[⟨.keyword .voidType, ⟨0, 4⟩⟩], by simp, by decide +kernel, fun d => rfl⟩
  · next hany =>
    rw [hany]
    exact ⟨[⟨.identifier "Any", ⟨0, 3⟩⟩], by simp, by decide +kernel, fun d => rfl⟩
  · obtain ⟨ts, hread, hts⟩ := parse_eq_ok.1 h
    exact ⟨ts, hts.ne_nil, hread, fun d => hts.angles⟩

end TypeRef

/-! ## Commas outside of angle brackets -/

namespace LoopDefinition

/-- The characters that the search for commas looks at. -/
def marks : List Char := [',', '<', '>']

/-- There is always a piece. -/
theorem splitCommas_ne_nil (d : Nat) (cs : List Char) : splitCommas d cs ≠ [] := by
  fun_cases splitCommas d cs <;> simp

/-- The search for commas finds none in the text, and `d'` angle brackets are open behind it if `d` are
open before it. -/
def Passes (d : Nat) (cs : List Char) (d' : Nat) : Prop :=
  ∀ rest, splitCommas d (cs ++ rest) = (splitCommas d' rest).modifyHead (cs ++ ·)

/-- Nothing is passed over. -/
theorem passes_nil (d : Nat) : Passes d [] d := fun rest => by
  obtain ⟨piece, pieces, h⟩ := List.exists_cons_of_ne_nil (splitCommas_ne_nil d rest)
  simp [h]

/-- Two texts are passed over one after the other. -/
theorem Passes.append {ds : List Char} {d'' : Nat} (h : Passes d cs d') (h' : Passes d' ds d'') :
    Passes d (cs ++ ds) d'' := fun rest => by
  obtain ⟨piece, pieces, heq⟩ := List.exists_cons_of_ne_nil (splitCommas_ne_nil d'' rest)
  rw [List.append_assoc, h, h', heq]
  simp

/-- One character is passed over, unless it is a comma outside of brackets. -/
theorem passes_singleton (h : c = ',' → d ≠ 0) :
    Passes d [c] (if c = '<' then d + 1 else if c = '>' then d - 1 else d) := fun rest => by
  have hsplit : ¬ (decide (c = ',') && decide (d = 0)) = true := by simpa using h
  rw [List.singleton_append, splitCommas, if_neg hsplit]
  generalize (if c = '<' then d + 1 else if c = '>' then d - 1 else d) = d'
  obtain ⟨piece, pieces, heq⟩ := List.exists_cons_of_ne_nil (splitCommas_ne_nil d' rest)
  simp [heq]

/-- A text without brackets and commas is passed over. -/
theorem passes_of_notMem_marks (h : ∀ c ∈ cs, c ∉ marks) : Passes d cs d := by
  induction cs with
  | nil => exact passes_nil d
  | cons c cs ih =>
    obtain ⟨hc, hcs⟩ := List.forall_mem_cons.1 h
    simp only [marks, List.mem_cons, List.not_mem_nil, or_false, not_or] at hc
    have hone : Passes d [c] d := by
      simpa [hc.2.1, hc.2.2] using passes_singleton (d := d) fun hcomma => absurd hcomma hc.1
    exact hone.append (ih hcs)

/-- A word is passed over. -/
theorem passes_of_isIdentifier (h : Text.isIdentifier cs = true) : Passes d cs d := by
  have hall : marks.all (fun c => !isIdentifierPart c) = true := by decide +kernel
  refine passes_of_notMem_marks fun c hc hmem => ?_
  simpa [Text.isIdentifierPart_of_isIdentifier h c hc] using List.all_eq_true.1 hall c hmem

/-- White space is passed over. -/
theorem passes_of_isWhiteSpace (h : ∀ c ∈ cs, isWhiteSpace c = true) : Passes d cs d := by
  have hall : marks.all (fun c => !isWhiteSpace c) = true := by decide +kernel
  refine passes_of_notMem_marks fun c hc hmem => ?_
  simpa [h c hc] using List.all_eq_true.1 hall c hmem

/-- Pieces that the search passes over are found again. -/
theorem splitCommas_intercalate {pieces : List (List Char)} (hne : pieces ≠ [])
    (h : ∀ piece ∈ pieces, Passes 0 piece 0) :
    splitCommas 0 ([','].intercalate pieces) = pieces := by
  induction pieces with
  | nil => exact absurd rfl hne
  | cons piece pieces ih =>
    obtain ⟨hpiece, hpieces⟩ := List.forall_mem_cons.1 h
    cases pieces with
    | nil =>
      have hsplit := hpiece []
      rw [List.append_nil] at hsplit
      rw [List.intercalate_singleton, hsplit]
      simp [splitCommas]
    | cons next pieces =>
      rw [List.intercalate_cons_cons, List.append_assoc, hpiece, List.singleton_append, splitCommas]
      simp [ih (List.cons_ne_nil next pieces) hpieces]

end LoopDefinition

open LoopDefinition (Passes)

/-! ## The text of a type -/

/-- An operator sign of a type is one character. -/
theorem Sign.text_of_angles {s : Sign} (h : s.angles d = some d') :
    ∃ c ∈ ['<', '>', '?'], s.text.toList = [c] ∧
      d' = if c = '<' then d + 1 else if c = '>' then d - 1 else d := by
  rw [angles] at h
  split at h
  · next hs =>
    subst hs
    exact ⟨'<', by simp, rfl, (Option.some.inj h).symm⟩
  split at h
  · next hs =>
    subst hs
    exact ⟨'>', by simp, rfl, (Option.some.inj h).symm⟩
  split at h
  · next hs =>
    subst hs
    exact ⟨'?', by simp, rfl, (Option.some.inj h).symm⟩
  · cases h

/-- A lexeme of a type has no white space in it, and the search for commas counts its angle brackets. -/
theorem Lexeme.WrittenAs.passes (hwritten : l.WrittenAs piece) (hvalid : l.Valid)
    (h : l.angles d = some d') : (∀ c ∈ piece, isWhiteSpace c = false) ∧ Passes d piece d' := by
  cases l with
  | sign s =>
    obtain ⟨c, hc, htext, rfl⟩ := Sign.text_of_angles h
    obtain rfl : piece = [c] := Eq.trans hwritten htext
    have hall : ['<', '>', '?'].all (fun e => !isWhiteSpace e && e ≠ ',') = true := by decide +kernel
    obtain ⟨hspace, hcomma⟩ : isWhiteSpace c = false ∧ c ≠ ',' := by
      simpa using List.all_eq_true.1 hall c hc
    exact ⟨List.forall_mem_singleton.2 hspace,
      LoopDefinition.passes_singleton fun heq => absurd heq hcomma⟩
  | punctuation p =>
    obtain ⟨hcomma, rfl⟩ : ¬ (p = ',' ∧ d = 0) ∧ d = d' := by
      simpa [Lexeme.angles] using h
    obtain rfl : piece = [p] := by simpa [Lexeme.WrittenAs, Lexeme.text] using hwritten
    have hall : ['(', ')', '[', ']', '\x7b', '\x7d', ',', ':', ';', '@', '.'].all (fun q =>
        !isWhiteSpace q && q ≠ '<' && q ≠ '>') = true := by decide +kernel
    obtain ⟨⟨hspace, hless⟩, hgreater⟩ : (isWhiteSpace p = false ∧ p ≠ '<') ∧ p ≠ '>' := by
      simpa using List.all_eq_true.1 hall p (List.contains_iff_mem.1 hvalid)
    have hpassed := LoopDefinition.passes_singleton (c := p) (d := d) fun hp hd => hcomma ⟨hp, hd⟩
    rw [if_neg hless, if_neg hgreater] at hpassed
    exact ⟨List.forall_mem_singleton.2 hspace, hpassed⟩
  | identifier name =>
    obtain rfl := Option.some.inj h
    obtain rfl : piece = name.toList := hwritten
    exact ⟨Text.not_isWhiteSpace_of_isIdentifier hvalid.1, LoopDefinition.passes_of_isIdentifier hvalid.1⟩
  | keyword word =>
    obtain rfl := Option.some.inj h
    obtain rfl : piece = word.text.toList := hwritten
    have hword := word.isIdentifier_text
    exact ⟨Text.not_isWhiteSpace_of_isIdentifier hword, LoopDefinition.passes_of_isIdentifier hword⟩
  | string | character | number => cases h

namespace Token.Pieces

/-- A word that stands in the text of a type is one of its tokens. -/
theorem exists_of_stands (h : Pieces cs ts) (hd : angles d ts = some d')
    (hw : Text.isIdentifier w = true) (hstands : Stands w cs) :
    ∃ t ∈ ts, t.lexeme = wordLexeme (String.ofList w) := by
  have hne : w ≠ [] := by
    rintro rfl
    cases hw
  have hblank {gap : List Char} (hgap : ∀ c ∈ gap, isBlank c = true) : ∀ c ∈ gap, c ∉ w := by
    intro c hc hmem
    exact not_isIdentifierPart_of_isBlank (hgap c hc)
      (Text.isIdentifierPart_of_isIdentifier hw c hmem)
  induction h generalizing d with
  | @blanks gap hgap =>
    rw [← List.append_nil gap] at hstands
    exact absurd (hstands.of_append (hblank hgap) hne) (Text.not_stands_nil hne)
  | @token gap piece rest tail c t ts hgap hpiece hstep hwritten h ih =>
    obtain ⟨d₁, hd₁, hd⟩ := Option.bind_eq_some_iff.1 hd
    have hspace := (hwritten.passes (Step.valid_of_step hstep) hd₁).1
    obtain ⟨before, after, heq, hbefore, hafter⟩ := hstands.of_append (hblank hgap) hne
    by_cases hempty : before = []
    · -- the word is the first token
      subst hempty
      have hend : ∀ e, after.head? = some e → ¬ isIdentifierPart e = true := fun e he hpart => by
        have hspace := hafter e he
        rw [Text.not_isWhiteSpace_of_isIdentifierPart hpart] at hspace
        cases hspace
      obtain ⟨c', tail', hw', -, hstep'⟩ := step_word hw hend
      obtain ⟨rfl, rfl⟩ := List.cons.inj (hpiece.symm.trans (heq.trans hw'))
      exact ⟨t, List.mem_cons_self, (Step.lexeme.inj (hstep.symm.trans hstep')).1⟩
    · -- the white space before the word is behind the first token
      obtain ⟨e, he⟩ : ∃ e, before.getLast? = some e := ⟨_, List.getLast?_eq_some_getLast hempty⟩
      rcases List.append_eq_append_iff.1 heq with ⟨front, rfl, hrest⟩ | ⟨front, rfl, -⟩
      · have hfront : ∀ f, front.getLast? = some f → isWhiteSpace f = true := fun f hf =>
          hbefore f (by rw [List.getLast?_append, hf, Option.some_or])
        obtain ⟨u, hu, hlexeme⟩ := ih hd ⟨front, after, hrest, hfront, hafter⟩
        exact ⟨u, List.mem_cons_of_mem t hu, hlexeme⟩
      · have hin := hspace e (List.mem_append_left front (List.mem_of_getLast? he))
        rw [hbefore e he] at hin
        cases hin

/-- The search for commas counts the angle brackets of the tokens. -/
theorem passes (h : Pieces cs ts) (hd : angles d ts = some d') : Passes d cs d' := by
  have hblank {d : Nat} {gap : List Char} (hgap : ∀ c ∈ gap, isBlank c = true) : Passes d gap d :=
    LoopDefinition.passes_of_isWhiteSpace fun c hc => Text.isWhiteSpace_of_isBlank (hgap c hc)
  induction h generalizing d with
  | blanks hgap =>
    obtain rfl := Option.some.inj hd
    exact hblank hgap
  | token hgap hpiece hstep hwritten h ih =>
    obtain ⟨d₁, hd₁, hd⟩ := Option.bind_eq_some_iff.1 hd
    have hpassed := (hwritten.passes (Step.valid_of_step hstep) hd₁).2
    exact (hblank hgap).append (hpassed.append (ih hd))

end Token.Pieces

end Stencil
