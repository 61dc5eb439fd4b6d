import Stencil.Proofs.Text.Split
import Stencil.Proofs.Token.Written
import Stencil.Proofs.TypeRef.Derivation

/-!
# Printed types

The lexemes that a type is printed as (`written`): its name, split at the full stops, its arguments in
angle brackets with a comma and a blank between them, its dimensions. `texts_written` says that the
printer prints just these.

For a type that was read from tokens three things are shown. The tokens are what it is printed as,
except for empty angle brackets (`Derives.sheds`, with what is known of a class that ends in no name).
Every lexeme can be read behind the others (`Derives.readable`), and none runs into the next
(`not_clash_written`): a type has neither signs that could double nor numbers. And tokens that spell
the type are the type again (`Derives.of_spells`). With Proofs/Token/Written this is the round trip of
types.

All of it goes by induction on the grammar of types, with one lemma for lists with commas
(`Sheds.joined`, `readable_separated`, `clash_separated`), which the arguments of calls use again.

**What it does not establish.** The one word that types share with something else, `Any`, is not
looked at here: a type is read by itself, not as a declaration.
-/

namespace Stencil

open Token (IsName wordLexeme)
open Written (Spells Readable Clash Ends Sheds Fronted separated texts)

/-! ## Separated lists -/

namespace Written

variable {α : Type} {written : α → List Written} {as : List α} {rest : List Char} {us : List Token}
  {parts : List (List Token × α)}

/-- Tokens that spell parts with commas between them are parts with commas between them. -/
theorem Spells.joined (h : Spells (separated (as.map written)) us) :
    ∃ parts : List (List Token × α), Joined us (parts.map (·.1)) ∧ parts.map (·.2) = as ∧
      ∀ p ∈ parts, Spells (written p.2) p.1 := by
  induction as generalizing us with
  | nil => exact ⟨[], h.eq_nil ▸ .none, rfl, by simp⟩
  | cons a as ih =>
    cases as with
    | nil => exact ⟨[(us, a)], .one us, rfl, List.forall_mem_singleton.2 h⟩
    | cons b as =>
      obtain ⟨ts, us', rfl, hfirst, htail⟩ := h.split
      obtain ⟨span, us, rfl, hrest⟩ := htail.uncons
      obtain ⟨parts, hjoined, hparts, hspells⟩ := ih (spells_space.1 hrest)
      cases parts with
      | nil => cases hparts
      | cons p parts =>
        refine ⟨(ts, a) :: p :: parts, .more span hjoined, by rw [List.map_cons, hparts], ?_⟩
        exact List.forall_mem_cons.2 ⟨hfirst, hspells⟩

/-- Parts with commas between them are written as the parts are, with commas between them. -/
theorem Sheds.joined {q : List Token × α → Prop} (h : Joined us (parts.map (·.1)))
    (hparts : ∀ p ∈ parts, Sheds (q p) p.1 ((written p.2).map (·.lexeme))) :
    Sheds (∀ p ∈ parts, q p) us
      ((separated ((parts.map (·.2)).map written)).map (·.lexeme)) := by
  induction parts generalizing us with
  | nil =>
    cases h
    exact .refl [] (List.forall_mem_nil _)
  | cons p parts ih =>
    have hp := hparts p List.mem_cons_self
    cases parts with
    | nil =>
      cases h
      exact hp.imp List.forall_mem_singleton.2
    | cons r parts =>
      cases h with
      | more span h =>
        have hrest := ih h fun p hp => hparts p (List.mem_cons_of_mem _ hp)
        simp only [List.map_cons, separated, List.map_append, lexemes_space] at hrest ⊢
        exact (hp.append (hrest.keep _)).imp List.forall_mem_cons.2

/-- Parts with commas between them are readable if each part is, in front of what ends it. -/
theorem readable_separated (hfront : ∀ a ∈ as, Fronted (written a))
    (has : ∀ a ∈ as, ∀ rest, Ends rest → Readable (written a) rest) (hrest : Ends rest) :
    Readable (separated (as.map written)) rest := by
  induction as with
  | nil => trivial
  | cons a as ih =>
    cases as with
    | nil => exact has a (by simp) rest hrest
    | cons b as =>
      refine readable_append.2 ⟨has a (by simp) _ (ends_of_mem (by decide) _), ?_⟩
      refine .punctuation rfl (by decide) (readable_space.2 (ih ?_ ?_))
      · exact fun c hc => hfront c (List.mem_cons_of_mem _ hc)
      · exact fun c hc => has c (List.mem_cons_of_mem _ hc)

/-- Parts with commas between them clash if one of the parts does. -/
theorem clash_separated {q : α → Prop}
    (has : ∀ a ∈ as, ∀ rest, rest.head? ≠ some '.' → (Clash (written a) rest ↔ q a))
    (hrest : rest.head? ≠ some '.') :
    Clash (separated (as.map written)) rest ↔ ∃ a ∈ as, q a := by
  induction as with
  | nil => simp [separated, Clash]
  | cons a as ih =>
    cases as with
    | nil => simpa [separated] using has a (by simp) rest hrest
    | cons b as =>
      have hfirst := has a (by simp)
        (',' :: (texts (space (separated ((b :: as).map written))) ++ rest)) (by simp)
      have htail := ih fun c hc => has c (List.mem_cons_of_mem _ hc)
      have hcomma : Clash (⟨false, .punctuation ','⟩ :: space (separated ((b :: as).map written)))
          rest ↔ ∃ c ∈ b :: as, q c := by
        rw [Clash, clash_space, htail]
        simp [Clashes]
      rw [show (∃ c ∈ a :: b :: as, q c) ↔ q a ∨ ∃ c ∈ b :: as, q c by simp, ← hfirst,
        ← hcomma]
      exact clash_append

end Written

namespace TypeRef

/-! ## Names and dimensions -/

/-- The lexemes of the parts of a dotted name. -/
def partsWritten : List (List Char) → List Written
  | [] => []
  | [part] => [⟨false, wordLexeme (String.ofList part)⟩]
  | part :: parts =>
    ⟨false, wordLexeme (String.ofList part)⟩ :: ⟨false, .punctuation '.'⟩ :: partsWritten parts

/-- The lexemes of the name of a type. -/
def nameWritten (name : String) : List Written :=
  if name = "?" then [⟨false, .sign .question⟩]
  else partsWritten (Text.splitOnChar '.' name.toList)

/-- The lexemes of array dimensions. -/
def dimsWritten : Nat → List Written
  | 0 => []
  | dims + 1 => ⟨false, .punctuation '['⟩ :: ⟨false, .punctuation ']'⟩ :: dimsWritten dims

mutual

/-- The lexemes that a type is printed as. -/
def written : TypeRef → List Written
  | .void => [⟨false, .keyword .voidType⟩]
  | .dynamic => [⟨false, .identifier "Any"⟩]
  | .named name [] dims => nameWritten name ++ dimsWritten dims
  | .named name args dims =>
    nameWritten name ++ ⟨false, .sign .less⟩ ::
      (separated (writtenList args) ++ ⟨false, .sign .greater⟩ :: dimsWritten dims)

/-- The lexemes of each type of a list. -/
def writtenList : List TypeRef → List (List Written)
  | [] => []
  | t :: ts => t.written :: writtenList ts

end

/-- The lexemes of several types. -/
theorem writtenList_eq (ts : List TypeRef) : writtenList ts = ts.map written := by
  induction ts with
  | nil => rfl
  | cons t ts ih => rw [writtenList, ih, List.map_cons]

/-- A type with arguments. -/
theorem written_generic {name : String} {args : List TypeRef} {dims : Nat} (h : args ≠ []) :
    (named name args dims).written = nameWritten name ++ ⟨false, .sign .less⟩ ::
      (separated (args.map written) ++ ⟨false, .sign .greater⟩ :: dimsWritten dims) := by
  rw [written, writtenList_eq]
  exact h

/-- One part more of a name adds a full stop and a word. -/
theorem partsWritten_append {parts : List (List Char)} (h : parts ≠ []) (part : List Char) :
    partsWritten (parts ++ [part]) =
      partsWritten parts ++ [⟨false, .punctuation '.'⟩, ⟨false, wordLexeme (String.ofList part)⟩] := by
  induction parts with
  | nil => exact absurd rfl h
  | cons p parts ih =>
    cases parts with
    | nil => rfl
    | cons q parts =>
      rw [List.cons_append, partsWritten, partsWritten, ih (by simp)]
      · rfl
      · simp
      · simp

/-- A word is spelled as itself. -/
theorem spelling_wordLexeme (name : String) : (wordLexeme name).spelling = name.toList := by
  rw [wordLexeme]
  split
  · next word hword =>
    have htext := List.find?_some (show Keyword.all.find? (·.text == name) = some word from hword)
    rw [Lexeme.spelling, eq_of_beq htext]
  · rfl

/-- A name is put together again of its parts. -/
theorem texts_partsWritten (cs : List Char) :
    texts (partsWritten (Text.splitOnChar '.' cs)) = cs := by
  have hcons (d : Char) (p : List Char) (ps : List (List Char)) :
      texts (partsWritten ((d :: p) :: ps)) = d :: texts (partsWritten (p :: ps)) := by
    cases ps <;> simp [partsWritten, Written.text, spelling_wordLexeme]
  induction cs with
  | nil => rfl
  | cons d cs ih =>
    obtain ⟨p, ps, hp⟩ := List.exists_cons_of_ne_nil (Text.splitOnChar_ne_nil '.' cs)
    rw [hp] at ih
    rw [Text.splitOnChar, hp]
    split
    · next heq =>
      rw [partsWritten, Written.texts_cons, Written.texts_cons, ih, heq]
      · rfl
      · simp
    · rw [hcons, ih]

/-- A name is printed as itself. -/
theorem texts_nameWritten (name : String) : texts (nameWritten name) = name.toList := by
  rw [nameWritten]
  split
  · next heq =>
    rw [heq]
    rfl
  · exact texts_partsWritten _

/-- Dimensions are printed as their text. -/
theorem texts_dimsWritten (dims : Nat) : texts (dimsWritten dims) = (dimsText dims).toList := by
  induction dims with
  | zero => rfl
  | succ dims ih =>
    rw [dimsWritten, Written.texts_cons, Written.texts_cons, ih, dimsText, String.toList_append]
    rfl

/-- A name starts without a blank. -/
theorem fronted_nameWritten (name : String) : Fronted (nameWritten name) := by
  rw [nameWritten]
  split
  · exact ⟨_, [], rfl⟩
  · obtain ⟨p, ps, hp⟩ := List.exists_cons_of_ne_nil (Text.splitOnChar_ne_nil '.' name.toList)
    rw [hp]
    cases ps <;> exact ⟨_, _, rfl⟩

/-- A type starts without a blank. -/
theorem fronted_written (t : TypeRef) : Fronted t.written := by
  cases t with
  | void | dynamic => exact ⟨_, [], rfl⟩
  | named name args dims =>
    cases args with
    | nil => exact (fronted_nameWritten name).append _
    | cons t args => exact (fronted_nameWritten name).append _

mutual

/-- A type is printed as its lexemes. -/
theorem texts_written : (t : TypeRef) → texts t.written = t.print.toList
  | .void | .dynamic => rfl
  | .named name [] dims => by
    rw [written, print, Written.texts_append, texts_nameWritten, texts_dimsWritten,
      String.toList_append]
  | .named name (t :: args) dims => by
    have hargs := map_texts_written (t :: args)
    have hfront : ∀ ws ∈ (t :: args).map written, Fronted ws := by
      intro ws hws
      obtain ⟨u, -, rfl⟩ := List.mem_map.1 hws
      exact fronted_written u
    rw [written_generic (by simp), Written.texts_append, Written.texts_cons, Written.texts_append,
      Written.texts_cons, texts_nameWritten, texts_dimsWritten, Written.texts_separated hfront,
      List.map_map, show (t :: args).map ((fun ws => String.ofList (texts ws)) ∘ written) =
        printList (t :: args) from hargs, print]
    · simp [Written.text, Lexeme.spelling, Sign.text]
    · simp

/-- Several types are printed as their lexemes. -/
theorem map_texts_written : (ts : List TypeRef) →
    ts.map (fun t => String.ofList (texts t.written)) = printList ts
  | [] => rfl
  | t :: ts => by rw [List.map_cons, texts_written t, map_texts_written ts, printList,
      String.ofList_toList]

end

/-! ## The tokens of a type -/

/-- A word has no full stop in it. -/
theorem notMem_of_isIdentifier {cs : List Char} (h : Text.isIdentifier cs = true) : '.' ∉ cs := by
  intro hmem
  have hdot : Text.isIdentifierStart '.' = false ∧ Text.isIdentifierPart '.' = false := by
    decide +kernel
  cases cs with
  | nil => cases hmem
  | cons c cs =>
    simp only [Text.isIdentifier, Bool.and_eq_true] at h
    rcases List.mem_cons.1 hmem with rfl | hmem
    · simp [hdot.1] at h
    · simpa [hdot.2] using List.all_eq_true.1 h.2 _ hmem

theorem notMem_of_isName {name : String} (h : IsName name) : '.' ∉ name.toList :=
  notMem_of_isIdentifier h.1

/-- A name is no wildcard. -/
theorem ne_wildcard_of_isName {name : String} (h : IsName name) : name ≠ "?" := by
  rintro rfl
  exact absurd h (by decide +kernel)

/-- A name without full stops is one lexeme. -/
theorem nameWritten_of_isName {name : String} (h : IsName name) :
    nameWritten name = [⟨false, .identifier name⟩] := by
  rw [nameWritten, if_neg (ne_wildcard_of_isName h), Text.splitOnChar_of_not_mem (notMem_of_isName h),
    partsWritten, String.ofList_toList, Token.wordLexeme_of_isName h]

/-- What has a full stop in it is no wildcard. -/
theorem field_ne_wildcard (name part : String) : name ++ "." ++ part ≠ "?" := by
  intro h
  have hmem : '.' ∈ (name ++ "." ++ part).toList := by simp
  rw [h] at hmem
  exact absurd hmem (by decide)

/-- A name behind a full stop adds two lexemes. -/
theorem nameWritten_field {name part : String} (hname : name ≠ "?") (hpart : IsName part) :
    nameWritten (name ++ "." ++ part) =
      nameWritten name ++ [⟨false, .punctuation '.'⟩, ⟨false, .identifier part⟩] := by
  have htext : (name ++ "." ++ part).toList = name.toList ++ '.' :: part.toList := by simp
  rw [nameWritten, nameWritten, if_neg (field_ne_wildcard name part), if_neg hname, htext,
    Text.splitOnChar_append_sep, Text.splitOnChar_of_not_mem (notMem_of_isName hpart),
    partsWritten_append (Text.splitOnChar_ne_nil _ _), String.ofList_toList, Token.wordLexeme_of_isName hpart]

variable {name full : String} {ts us ds : List Token} {dims : Nat} {t : TypeRef}
  {rest : List Char}

/-- The tokens as a printer writes them without blanks. -/
def unspaced (ts : List Token) : List Written := ts.map fun t => ⟨false, t.lexeme⟩

/-- Written without blanks, tokens keep their lexemes. -/
@[simp] theorem lexemes_unspaced (ts : List Token) :
    (unspaced ts).map (·.lexeme) = ts.map (·.lexeme) := by
  simp [unspaced]

/-- A dotted name is printed as its tokens, behind any front. -/
theorem Dotted.nameWritten_eq (h : Dotted name ts full) (hvalid : ∀ t ∈ ts, t.lexeme.Valid)
    (hname : name ≠ "?") : nameWritten full = TypeRef.nameWritten name ++ unspaced ts := by
  induction h with
  | stop => exact (List.append_nil _).symm
  | @dot name part full ts s₁ s₂ _ ih =>
    have hpart : IsName part := hvalid ⟨.identifier part, s₂⟩ (by simp)
    rw [ih (fun t ht => hvalid t (by simp [ht])) (field_ne_wildcard name part),
      nameWritten_field hname hpart, List.append_assoc]
    rfl

/-- A dotted name is printed as its tokens. -/
theorem Dotted.nameWritten_full (h : Dotted name ts full) (span : Span)
    (hname : (⟨.identifier name, span⟩ : Token).lexeme.Valid) (hvalid : ∀ t ∈ ts, t.lexeme.Valid) :
    TypeRef.nameWritten full = unspaced (⟨.identifier name, span⟩ :: ts) := by
  rw [h.nameWritten_eq hvalid (ne_wildcard_of_isName hname), nameWritten_of_isName hname]
  rfl

/-- Dimensions are printed as their tokens. -/
theorem Dims.dimsWritten_eq (h : Dims ds dims) : dimsWritten dims = unspaced ds := by
  induction h with
  | none => rfl
  | dim s₁ s₂ _ ih => rw [TypeRef.dimsWritten, ih]; rfl

/-- A reserved word that names a type is printed as the word. -/
theorem nameWritten_of_typeName? {word : Keyword} (h : word.typeName? = some name) :
    nameWritten name = [⟨false, .keyword word⟩] := by
  cases word with
  | primitive p =>
    obtain rfl := Option.some.inj h
    cases p <;> decide +kernel
  | voidType =>
    obtain rfl := Option.some.inj h
    decide +kernel
  | _ => cases h

/-- Whether the type is a class without arguments and dimensions, which ends in a name. -/
def endsInName : TypeRef → Bool
  | .named name [] 0 => (Keyword.ofText? name).isNone
  | _ => false

/-- A type ends in a name if it has neither arguments nor dimensions and its name is not reserved. -/
theorem endsInName_iff {args : List TypeRef} : (named name args dims).endsInName = true ↔
    args = [] ∧ dims = 0 ∧ Keyword.ofText? name = none := by
  cases args <;> cases dims <;> simp [endsInName]

/-- A reserved word that names a type is named as it is spelled. -/
theorem ofText?_of_typeName? {word : Keyword} (h : word.typeName? = some name) :
    Keyword.ofText? name = some word := by
  cases word with
  | primitive p =>
    obtain rfl := Option.some.inj h
    exact Keyword.ofText?_text (.primitive p)
  | voidType =>
    obtain rfl := Option.some.inj h
    exact Keyword.ofText?_text .voidType
  | _ => cases h

/-- The tokens of a type are what it is printed as, except for empty angle brackets. Without those a
class that ends in a name does so in its tokens. -/
theorem Derives.sheds (h : Derives ts t) (hvalid : ∀ token ∈ ts, token.lexeme.Valid) :
    Sheds (t.endsInName = true → EndsInName ts) ts (t.written.map (·.lexeme)) := by
  induction h with
  | @primitive word name ds dims span hword hdims =>
    have hnot : (named name [] dims).endsInName = true →
        EndsInName (⟨.keyword word, span⟩ :: ds) := by
      intro hends
      have hnone := (endsInName_iff.1 hends).2.2
      rw [ofText?_of_typeName? hword] at hnone
      cases hnone
    rw [written, nameWritten_of_typeName? hword, hdims.dimsWritten_eq]
    simpa using Sheds.refl (⟨.keyword word, span⟩ :: ds) hnot
  | @plain name full ts ds dims span hname hdims =>
    have hfull := hname.nameWritten_full span (hvalid _ (by simp)) fun t ht => hvalid t (by simp [ht])
    have hname' : (named full [] dims).endsInName = true →
        EndsInName (⟨.identifier name, span⟩ :: (ts ++ ds)) := by
      intro hends
      obtain ⟨-, rfl, -⟩ := endsInName_iff.1 hends
      cases hdims
      rw [List.append_nil]
      exact hname.endsInName ⟨name, rfl⟩
    rw [written, hfull, hdims.dimsWritten_eq]
    simpa using Sheds.refl (⟨.identifier name, span⟩ :: (ts ++ ds)) hname'
  | @diamond name full ts ds dims span s₁ s₂ hname hdims =>
    have hfull := hname.nameWritten_full span (hvalid _ (by simp)) fun t ht => hvalid t (by simp [ht])
    rw [written, hfull, hdims.dimsWritten_eq]
    simpa using (Sheds.drop s₁ s₂ (.refl ds trivial)).front (⟨.identifier name, span⟩ :: ts)
  | @generic name full ts us ds parts dims span s₁ s₂ hname hne hjoined hparts hdims ih =>
    have hfull := hname.nameWritten_full span (hvalid _ (by simp)) fun t ht => hvalid t (by simp [ht])
    have hargs : ∀ p ∈ parts, Sheds True p.1 (p.2.written.map (·.lexeme)) := by
      intro p hp
      by_cases hwild : IsWildcard p
      · obtain ⟨ht, s, hts⟩ := hwild
        rw [ht, hts]
        exact .refl [⟨.sign .question, s⟩] trivial
      · have hsub := hjoined.subset (List.mem_map_of_mem hp)
        exact (ih p hp hwild fun t ht => hvalid t (by simp [hsub ht])).imp fun _ => trivial
    -- with arguments, a type does not end in a name
    have hnot : ¬ (named full (parts.map (·.2)) dims).endsInName = true := fun hends =>
      absurd (endsInName_iff.1 hends).1 (by simpa using hne)
    rw [written_generic (by simpa using hne), hfull, hdims.dimsWritten_eq]
    have hall := ((Sheds.joined hjoined hargs).behind (⟨.sign .greater, s₂⟩ :: ds)).front
      (⟨.identifier name, span⟩ :: (ts ++ [⟨.sign .less, s₁⟩]))
    simpa using hall.imp fun _ hends => absurd hends hnot

/-- What has a full stop in it is not reserved. -/
theorem ofText?_of_mem (h : '.' ∈ name.toList) : Keyword.ofText? name = none := by
  cases hword : Keyword.ofText? name with
  | none => rfl
  | some word =>
    have htext := List.find?_some (show Keyword.all.find? (·.text == name) = some word from hword)
    rw [← eq_of_beq htext] at h
    exact absurd h (notMem_of_isIdentifier word.isIdentifier_text)

/-- A dotted name is not reserved, unless it is a single reserved word. -/
theorem Dotted.ofText? (h : Dotted name ts full) (hname : Keyword.ofText? name = none) :
    Keyword.ofText? full = none := by
  induction h with
  | stop => exact hname
  | dot s₁ s₂ _ ih => exact ih (ofText?_of_mem (by simp))

/-- A type whose tokens end in a name is a class that ends in a name. -/
theorem Derives.endsInName (h : Derives ts t) (hvalid : ∀ token ∈ ts, token.lexeme.Valid)
    (hends : EndsInName ts) : t.endsInName = true := by
  have hdims {ts ds : List Token} {dims : Nat} (h : Dims ds dims) (hends : EndsInName (ts ++ ds)) :
      ds = [] ∧ dims = 0 := by
    -- Only a name without brackets behind it ends in a name.
    cases h with
    | none => exact ⟨rfl, rfl⟩
    | dim s₁ s₂ h => exact absurd hends (not_endsInName_of_dims (.dim s₁ s₂ h) (by simp))
  have hgreater (ts : List Token) (s : Span) {ds : List Token} {dims : Nat} (h : Dims ds dims) :
      ¬ EndsInName (ts ++ ⟨.sign .greater, s⟩ :: ds) := by
    rw [endsInName_append_cons]
    cases h with
    | none => simp [endsInName_singleton]
    | dim s₁ s₂ h => exact @not_endsInName_of_dims [_] _ _ (.dim s₁ s₂ h) (by simp)
  cases h with
  | @primitive word name ds dims span hword hds =>
    obtain ⟨rfl, rfl⟩ := @hdims [_] _ _ hds hends
    simp [endsInName_singleton] at hends
  | @plain name full ts ds dims span hname hds =>
    rw [← List.cons_append] at hends
    obtain ⟨rfl, rfl⟩ := hdims hds hends
    have hfirst : IsName name := hvalid ⟨.identifier name, span⟩ (by simp)
    exact endsInName_iff.2 ⟨rfl, rfl, hname.ofText? hfirst.2⟩
  | @diamond name full ts ds dims span s₁ s₂ hname hds =>
    have hnot := hgreater (⟨.identifier name, span⟩ :: (ts ++ [⟨.sign .less, s₁⟩])) s₂ hds
    exact absurd hends (by simpa using hnot)
  | @generic name full ts us ds parts dims span s₁ s₂ hname hne hjoined hparts hds =>
    have hnot := hgreater (⟨.identifier name, span⟩ :: (ts ++ ⟨.sign .less, s₁⟩ :: us)) s₂ hds
    exact absurd hends (by simpa using hnot)

/-! ## Reading printed types -/

/-- Dimensions end what stands in front of them. -/
theorem Dims.ends (h : Dims ds dims) (hrest : Ends rest) : Ends (texts (unspaced ds) ++ rest) := by
  cases h with
  | none => exact hrest
  | dim => exact Written.ends_of_mem (by decide) _

/-- Dimensions are readable, whatever stands behind them. -/
theorem Dims.readable (h : Dims ds dims) (rest : List Char) : Readable (unspaced ds) rest := by
  induction h with
  | none => trivial
  | dim s₁ s₂ _ ih => exact .punctuation rfl (by decide) (.punctuation rfl (by decide) ih)

/-- The rest of a dotted name ends what stands in front of it. -/
theorem Dotted.ends (h : Dotted name ts full) (hrest : Ends rest) :
    Ends (texts (unspaced ts) ++ rest) := by
  cases h with
  | stop => exact hrest
  | dot => exact Written.ends_of_mem (by decide) _

/-- The rest of a dotted name is readable. -/
theorem Dotted.readable (h : Dotted name ts full) (hvalid : ∀ t ∈ ts, t.lexeme.Valid)
    (hrest : Ends rest) : Readable (unspaced ts) rest := by
  induction h with
  | stop => trivial
  | @dot name part full ts s₁ s₂ h ih =>
    have hpart : IsName part := hvalid ⟨.identifier part, s₂⟩ (by simp)
    exact .field hpart (h.ends hrest) (ih fun t ht => hvalid t (by simp [ht]))

/-- A printed type starts with its first token, which is a word. -/
theorem Derives.front (h : Derives ts t) (hvalid : ∀ token ∈ ts, token.lexeme.Valid) :
    ∃ u us vs, ts = u :: us ∧ t.written = ⟨false, u.lexeme⟩ :: vs ∧
      Text.isIdentifier u.lexeme.spelling = true := by
  obtain ⟨l, vs, hwritten⟩ := fronted_written t
  obtain ⟨n, helides, -⟩ := h.sheds hvalid
  obtain ⟨u, us, rfl, hu⟩ := h.first
  have hhead := helides.head?_eq (by rcases hu with ⟨_, hu⟩ | ⟨_, hu, -⟩ <;> simp [hu])
  rw [hwritten] at hhead
  obtain rfl : l = u.lexeme := Option.some.inj hhead
  refine ⟨u, us, vs, rfl, hwritten, ?_⟩
  rcases hu with ⟨name, hu⟩ | ⟨word, hu, -⟩
  · have hname := hvalid u (by simp)
    rw [hu] at hname ⊢
    exact hname.1
  · rw [hu]
    exact word.isIdentifier_text

/-- Every lexeme of a printed type can be read. -/
theorem Derives.readable (h : Derives ts t) (hvalid : ∀ token ∈ ts, token.lexeme.Valid)
    (hrest : Ends rest) : Readable t.written rest := by
  -- With arguments, three places are of interest: the name ends at the bracket, the bracket is not
  -- continued by the first argument, and each argument ends at a comma or at the closing bracket.
  induction h generalizing rest with
  | @primitive word name ds dims span hword hdims =>
    rw [written, nameWritten_of_typeName? hword, hdims.dimsWritten_eq]
    exact .keyword (hdims.ends hrest) (hdims.readable rest)
  | @plain name full ts ds dims span hname hdims
  | @diamond name full ts ds dims span _ _ hname hdims =>
    have hfirst : IsName name := hvalid ⟨.identifier name, span⟩ (by simp)
    have hrest := hdims.ends hrest
    have hvalid : ∀ t ∈ ts, t.lexeme.Valid := fun t ht => hvalid t (by simp [ht])
    rw [written, hname.nameWritten_full span hfirst hvalid, hdims.dimsWritten_eq]
    refine Written.readable_append.2 ⟨?_, hdims.readable rest⟩
    exact .identifier hfirst (hname.ends hrest) (hname.readable hvalid hrest)
  | @generic name full ts us ds parts dims span s₁ s₂ hname hne hjoined hparts hdims ih =>
    have hfirst : IsName name := hvalid ⟨.identifier name, span⟩ (by simp)
    have hrest := hdims.ends hrest
    have hvalid₁ : ∀ t ∈ ts, t.lexeme.Valid := fun t ht => hvalid t (by simp [ht])
    have hvalid₂ (p : List Token × TypeRef) (hp : p ∈ parts) : ∀ t ∈ p.1, t.lexeme.Valid := by
      intro t ht
      exact hvalid t (by simp [hjoined.subset (List.mem_map_of_mem hp) ht])
    rw [written_generic (by simpa using hne), hname.nameWritten_full span hfirst hvalid₁,
      hdims.dimsWritten_eq]
    have hfront (p : List Token × TypeRef) (hp : p ∈ parts) : ∃ l vs, p.2.written = ⟨false, l⟩ :: vs ∧
        ∃ d cs, l.spelling = d :: cs ∧ d ∉ Sign.continuations .less := by
      by_cases hwild : IsWildcard p
      · rw [hwild.1]
        exact ⟨_, [], rfl, '?', [], rfl, by decide⟩
      · obtain ⟨u, -, vs, -, hwritten, hl⟩ := (hparts p hp hwild).front (hvalid₂ p hp)
        obtain ⟨d, cs, hspelling, -, hd⟩ := Written.exists_of_isIdentifier hl
        have hsub : Sign.continuations .less ⊆ ['+', '-', '<', '>', '=', '.'] := by
          simp [Sign.continuations]
        exact ⟨_, vs, hwritten, d, cs, hspelling, fun hmem => hd (hsub hmem)⟩
    refine Written.readable_append.2 ⟨?_, trivial, .inl ?_, Written.readable_append.2 ⟨?_, ?_⟩⟩
    · have hless (rest : List Char) : Ends ('<' :: rest) := Written.ends_of_mem (by decide) rest
      exact .identifier hfirst (hname.ends (hless _)) (hname.readable hvalid₁ (hless _))
    · intro c hc
      obtain ⟨p, parts, rfl⟩ := List.exists_cons_of_ne_nil hne
      obtain ⟨l, vs, hwritten, hl⟩ := hfront p (by simp)
      obtain ⟨us, hus⟩ := Written.separated_cons ⟨false, l⟩ vs ((parts.map (·.2)).map written)
      obtain ⟨d, cs, hspelling, hd⟩ := hl
      rw [List.map_cons, List.map_cons, hwritten, hus, List.cons_append, Written.texts_cons,
        Written.text, hspelling] at hc
      obtain rfl := Option.some.inj hc
      exact hd
    · refine Written.readable_separated (fun t _ => fronted_written t) (fun t ht rest hrest => ?_)
        (Written.ends_of_mem (by decide) _)
      obtain ⟨p, hp, rfl⟩ := List.mem_map.1 ht
      by_cases hwild : IsWildcard p
      · rw [hwild.1]
        exact ⟨trivial, .inl fun _ _ => List.not_mem_nil, trivial⟩
      · exact ih p hp hwild (hvalid₂ p hp) hrest
    · refine ⟨trivial, .inl fun c hc => ?_, hdims.readable rest⟩
      simpa [Lexeme.Delimits, Sign.continuations] using (hrest c hc).2

/-- No lexeme of a name runs into the next. -/
theorem not_clash_nameWritten (name : String) (rest : List Char) :
    ¬ Clash (nameWritten name) rest := by
  have hword (name : String) (rest : List Char) : ¬ Written.Clashes (wordLexeme name) rest := by
    rw [wordLexeme]
    split <;> simp [Written.Clashes]
  have hparts (parts : List (List Char)) : ¬ Clash (partsWritten parts) rest := by
    induction parts with
    | nil => exact id
    | cons part parts ih =>
      cases parts with
      | nil => simp [partsWritten, Clash, hword]
      | cons q parts =>
        rw [partsWritten]
        · exact not_or.2 ⟨hword _ _, not_or.2 ⟨by simp [Written.Clashes], ih⟩⟩
        · simp
  rw [nameWritten]
  split
  · simp [Clash, Written.Clashes]
  · exact hparts _

/-- No lexeme of dimensions runs into the next. -/
theorem not_clash_dimsWritten (dims : Nat) (rest : List Char) : ¬ Clash (dimsWritten dims) rest := by
  induction dims with
  | zero => exact id
  | succ dims ih => simp [dimsWritten, Clash, ih, Written.Clashes]

mutual

/-- No lexeme of a type runs into the next. -/
theorem not_clash_written (rest : List Char) : (t : TypeRef) → ¬ Clash t.written rest
  | .void | .dynamic => by simp [written, Clash, Written.Clashes]
  | .named name [] dims => by
    simp [written, Written.clash_append, not_clash_nameWritten, not_clash_dimsWritten]
  | .named name (t :: args) dims => by
    have hargs := not_clash_writtenList (t :: args)
    have hlist (rest : List Char) (hrest : rest.head? ≠ some '.') :
        ¬ Clash (separated ((t :: args).map written)) rest := by
      rw [Written.clash_separated (fun u hu rest _ => iff_false_intro (hargs u hu rest)) hrest]
      simp
    rw [written_generic (by simp)]
    refine mt Written.clash_append.1 (not_or.2 ⟨not_clash_nameWritten _ _, not_or.2 ⟨?_, ?_⟩⟩)
    · simp [Written.Clashes]
    · refine mt Written.clash_append.1 (not_or.2 ⟨hlist _ ?_, not_or.2 ⟨?_, ?_⟩⟩)
      · simp [Written.text, Lexeme.spelling, Sign.text]
      · simp [Written.Clashes]
      · exact not_clash_dimsWritten _ _

/-- No lexeme of one of several types runs into the next. -/
theorem not_clash_writtenList : (ts : List TypeRef) → ∀ t ∈ ts, ∀ rest, ¬ Clash t.written rest
  | [], _, ht, _ => nomatch ht
  | t :: ts, u, hu, rest => by
    rcases List.mem_cons.1 hu with heq | hu
    · exact heq ▸ not_clash_written rest t
    · exact not_clash_writtenList ts u hu rest

end

/-- Tokens that spell dimensions are dimensions. -/
theorem Dims.of_spells {dims : Nat} (h : Spells (dimsWritten dims) ts) : Dims ts dims := by
  induction dims generalizing ts with
  | zero => exact h.eq_nil ▸ .none
  | succ dims ih =>
    obtain ⟨s₁, us, rfl, h₁⟩ := h.uncons
    obtain ⟨s₂, vs, rfl, h₂⟩ := h₁.uncons
    exact .dim s₁ s₂ (ih h₂)

/-- A dotted name is known by its lexemes. -/
theorem Dotted.of_lexemes (h : Dotted name ts full)
    (hsame : us.map (·.lexeme) = ts.map (·.lexeme)) : Dotted name us full := by
  induction h generalizing us with
  | stop name =>
    obtain rfl := List.map_eq_nil_iff.1 hsame
    exact .stop name
  | dot s₁ s₂ _ ih =>
    cases us with
    | nil => cases hsame
    | cons u us =>
      cases us with
      | nil => cases (List.cons.inj hsame).2
      | cons v us =>
        obtain ⟨l, s⟩ := u
        obtain ⟨k, r⟩ := v
        simp only [List.map_cons, List.cons.injEq] at hsame
        obtain ⟨rfl, rfl, hsame⟩ := hsame
        exact .dot s r (ih hsame)

/-- Tokens that spell the name of a type are a dotted name. -/
theorem Dotted.of_spells {span : Span} (h : Dotted name ts full)
    (hfull : nameWritten full = unspaced (⟨.identifier name, span⟩ :: ts))
    (hspells : Spells (nameWritten full) us) :
    ∃ s vs, us = ⟨.identifier name, s⟩ :: vs ∧ Dotted name vs full := by
  rw [hfull] at hspells
  obtain ⟨s, vs, rfl, hspells⟩ := hspells.uncons
  exact ⟨s, vs, rfl, h.of_lexemes (by simpa using hspells.lexemes)⟩

/-- Tokens that spell a type are the type. -/
theorem Derives.of_spells (h : Derives ts t) (hvalid : ∀ token ∈ ts, token.lexeme.Valid)
    (hspells : Spells t.written us) : Derives us t := by
  induction h generalizing us with
  | @primitive word name ds dims span hword hdims =>
    rw [written, nameWritten_of_typeName? hword] at hspells
    obtain ⟨s, us, rfl, hds⟩ := hspells.uncons
    exact .primitive s hword (.of_spells hds)
  | @plain name full ts ds dims span hname hdims
  | @diamond name full ts ds dims span _ _ hname hdims =>
    have hfull := hname.nameWritten_full span (hvalid _ (by simp)) fun t ht => hvalid t (by simp [ht])
    rw [written] at hspells
    obtain ⟨vs, ws, rfl, hvs, hws⟩ := hspells.split
    obtain ⟨s, vs, rfl, hname⟩ := hname.of_spells hfull hvs
    exact .plain s hname (.of_spells hws)
  | @generic name full ts vs ds parts dims span s₁ s₂ hname hne hjoined hparts hdims ih =>
    have hfull := hname.nameWritten_full span (hvalid _ (by simp)) fun t ht => hvalid t (by simp [ht])
    have hargs : parts.map (·.2) ≠ [] := by simpa using hne
    rw [written_generic hargs] at hspells
    obtain ⟨ws, us, rfl, hws, htail⟩ := hspells.split
    obtain ⟨s, ws, rfl, hname⟩ := hname.of_spells hfull hws
    obtain ⟨r₁, us, rfl, htail₁⟩ := htail.uncons
    obtain ⟨us, ds, rfl, hus, htail₂⟩ := htail₁.split
    obtain ⟨r₂, ds, rfl, hds⟩ := htail₂.uncons
    obtain ⟨parts', hjoined', hsame, hspells'⟩ := hus.joined
    rw [← hsame] at hargs ⊢
    refine .generic s r₁ r₂ hname (by simpa using hargs) hjoined' (fun p hp hwild => ?_)
      (.of_spells hds)
    obtain ⟨q, hq, heq⟩ := List.mem_map.1 (hsame ▸ List.mem_map_of_mem hp : p.2 ∈ parts.map (·.2))
    have hp := hspells' p hp
    -- A wildcard is written as a question mark, and no other type is.
    by_cases hwild' : IsWildcard q
    · rw [← heq, hwild'.1] at hp
      obtain ⟨s, us, hus, hnil⟩ := hp.uncons
      exact absurd ⟨heq.symm.trans hwild'.1, s, by rw [hus, hnil.eq_nil]⟩ hwild
    · have hsub := hjoined.subset (List.mem_map_of_mem hq)
      rw [← heq] at hp ⊢
      exact ih q hq hwild' (fun t ht => hvalid t (by simp [hsub ht])) hp

/-- Tokens that spell a type start with the lexeme that the type was read from. -/
theorem Derives.first_of_spells (h : Derives ts t) (hvalid : ∀ token ∈ ts, token.lexeme.Valid)
    (hspells : Spells t.written us) {u : Token} (hu : us.head? = some u) :
    ∃ token, ts.head? = some token ∧ u.lexeme = token.lexeme := by
  obtain ⟨token, ts, vs, rfl, hwritten, -⟩ := h.front hvalid
  rw [hwritten] at hspells
  obtain ⟨span, us, rfl, -⟩ := hspells.uncons
  obtain rfl := Option.some.inj hu
  exact ⟨token, rfl, rfl⟩

/-- Tokens that spell a class are the class. -/
theorem DerivesClass.of_spells (h : DerivesClass ts t)
    (hvalid : ∀ token ∈ ts, token.lexeme.Valid) (hspells : Spells t.written us) :
    DerivesClass us t := by
  have hderives := h.derives.of_spells hvalid hspells
  refine ⟨hderives, h.named, ?_⟩
  obtain ⟨u, us, rfl, -⟩ := hderives.first
  obtain ⟨token, htoken, hsame⟩ := h.derives.first_of_spells hvalid hspells rfl
  obtain ⟨name, hname⟩ := h.first
  rw [htoken, Option.map_some, ← hsame] at hname
  exact ⟨name, hname⟩

end TypeRef

end Stencil
