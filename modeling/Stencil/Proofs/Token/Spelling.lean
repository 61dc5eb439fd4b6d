import Stencil.Expr.Printer
import Stencil.Proofs.Token.NumberText
import Stencil.Proofs.Token.Reading

/-!
# Spelling lexemes

What is printed is a text, and it is read again from left to right. Each lexeme has a text that it is
printed as, `Lexeme.spelling`, and the question is when this text is read as the lexeme again: a word
runs on through letters and digits, a plus sign takes another one behind it, a full stop in front of a
digit is read as a number.

**The law** (`Step.reads_of_delimits`): a valid lexeme is read from its spelling, whatever stands
behind it, if the first character of that does not continue it (`Lexeme.Delimits`). Only one character
counts. The law is put together of one lemma for each kind of lexeme: `reads_identifier`,
`reads_keyword`, `reads_number`, `reads_punctuation`, `reads_sign`, `reads_string`, `reads_character`.
In strings and characters everything that cannot stand for itself is escaped, and `scan_escape` reads
it back.

Valid are the lexemes that can be read at all, and every lexeme that is read is valid
(`valid_of_step`), so the law applies to whatever came out of a text.

**What it does not establish.** The spelling need not be what the lexeme was read from: strings,
characters and numbers have many texts.
-/

namespace Stencil

open Text (isBlank isIdentifierPart)
open Token (IsName)

/-- The text that the lexeme is printed as. -/
def Lexeme.spelling : Lexeme → List Char
  | punctuation c => [c]
  | identifier name => name.toList
  | keyword word => word.text.toList
  | string value => (Quoted.print '"' value).toList
  | character value => (Quoted.print '\'' (String.singleton value)).toList
  | sign s => s.text.toList
  | number spelling => spelling.toList

/-- A lexeme that some text is read as. -/
def Lexeme.Valid : Lexeme → Prop
  | punctuation c => Step.isPunctuation c = true
  | identifier name => IsName name
  | number spelling => NumberLiteral.scan spelling.toList = .ok [] ∧ ∃ c cs,
      spelling.toList = c :: cs ∧ (c.isDigit || (c = '.' && NumberLiteral.startsWithDigit cs)) = true
  | keyword _ | string _ | character _ | sign _ => True

/-- The characters that continue a sign. -/
def Sign.continuations : Sign → List Char
  | .plus => ['+', '=']
  | .minus => ['-', '>', '=']
  | .amp => ['&', '=']
  | .bar => ['|', '=']
  | .less => ['<', '=']
  | .star | .slash | .percent | .caret | .shiftLeft | .greater | .bang | .assign => ['=']
  | _ => []

/-- Whether the character, standing behind the lexeme, is not read into it. -/
def Lexeme.Delimits (l : Lexeme) (c : Char) : Prop :=
  match l with
  | .identifier _ | .keyword _ => isIdentifierPart c = false
  | .number spelling =>
    isIdentifierPart c = false ∧ (c = '.' → NumberLiteral.isWhole spelling.toList = false)
  | .punctuation p => p = '.' → c.isDigit = false
  | .sign s => c ∉ s.continuations
  | .string _ | .character _ => True

/-! ## Words -/

/-- A keyword is a word. -/
theorem Keyword.isIdentifier_text (word : Keyword) : Text.isIdentifier word.text.toList = true := by
  cases word with
  | primitive p => cases p <;> decide +kernel
  | _ => decide +kernel

/-- A keyword is found by its text. -/
theorem Keyword.ofText?_text (word : Keyword) : Keyword.ofText? word.text = some word := by
  cases word with
  | primitive p => cases p <;> decide +kernel
  | _ => decide +kernel

namespace Step

variable {rest : List Char}

/-- The lexeme at the front of a text is read, and `rest` is left. -/
def Reads (l : Lexeme) (rest : List Char) : Prop :=
  ∃ c cs, l.spelling ++ rest = c :: cs ∧ isBlank c = false ∧ step c cs = .lexeme l rest

/-- A name is read up to a character that cannot continue it. -/
theorem reads_identifier {name : String} (hname : IsName name)
    (hrest : ∀ c, rest.head? = some c → isIdentifierPart c = false) :
    Reads (.identifier name) rest := by
  obtain ⟨c, cs, heq, hc, hs⟩ := Token.step_word hname.1 fun d hd => by simp [hrest d hd]
  rw [String.ofList_toList, Token.wordLexeme_of_isName hname] at hs
  exact ⟨c, cs, heq, by simpa using hc, hs⟩

/-- A keyword is read up to a character that cannot continue it. -/
theorem reads_keyword {word : Keyword}
    (hrest : ∀ c, rest.head? = some c → isIdentifierPart c = false) :
    Reads (.keyword word) rest := by
  obtain ⟨c, cs, heq, hc, hs⟩ := Token.step_word word.isIdentifier_text fun d hd => by
    simp [hrest d hd]
  rw [String.ofList_toList, Token.wordLexeme, word.ofText?_text] at hs
  exact ⟨c, cs, heq, by simpa using hc, hs⟩

/-! ## Numbers -/

/-- A digit starts no word and is no blank. -/
theorem not_isIdentifierStart_of_isDigit {c : Char} (h : c.isDigit = true) :
    Text.isIdentifierStart c = false ∧ isBlank c = false := by
  have hmem : c ∈ "0123456789".toList := by
    have hlow : 48 ≤ c.toNat := by
      simp only [Char.isDigit, Bool.and_eq_true, decide_eq_true_eq] at h
      exact UInt32.le_iff_toNat_le.1 h.1
    have hhigh : c.toNat ≤ 57 := by
      simp only [Char.isDigit, Bool.and_eq_true, decide_eq_true_eq] at h
      exact UInt32.le_iff_toNat_le.1 h.2
    have hchar : c = Char.ofNat c.toNat := (Char.ofNat_toNat c).symm
    obtain h | h | h | h | h | h | h | h | h | h : c.toNat = 48 ∨ c.toNat = 49 ∨ c.toNat = 50 ∨
        c.toNat = 51 ∨ c.toNat = 52 ∨ c.toNat = 53 ∨ c.toNat = 54 ∨ c.toNat = 55 ∨
        c.toNat = 56 ∨ c.toNat = 57 := by omega
    all_goals rw [hchar, h]; decide
  have hall : "0123456789".toList.all (fun d => !Text.isIdentifierStart d && !isBlank d) = true := by
    decide +kernel
  simpa using List.all_eq_true.1 hall c hmem

/-- A number stands at the front of the text. -/
theorem step_number {c : Char} {cs : List Char}
    (h : (c.isDigit || (c = '.' && NumberLiteral.startsWithDigit cs)) = true) :
    isBlank c = false ∧ step c cs = number (c :: cs) := by
  have hfront : Text.isIdentifierStart c = false ∧ isBlank c = false := by
    rcases Bool.or_eq_true_iff.1 h with hdigit | hpoint
    · exact not_isIdentifierStart_of_isDigit hdigit
    · obtain rfl : c = '.' := by simp_all
      decide +kernel
  exact ⟨hfront.2, by rw [step, hfront.1, if_neg (by decide), if_pos h]⟩

/-- What starts a number does so in front of any text. -/
theorem startsNumber_append {c : Char} {cs : List Char}
    (h : (c.isDigit || (c = '.' && NumberLiteral.startsWithDigit cs)) = true) (rest : List Char) :
    (c.isDigit || (c = '.' && NumberLiteral.startsWithDigit (cs ++ rest))) = true := by
  simp only [Bool.or_eq_true, Bool.and_eq_true, decide_eq_true_eq] at h ⊢
  refine h.imp_right fun hpoint => ⟨hpoint.1, ?_⟩
  obtain ⟨d, ds, rfl, hd⟩ := NumberLiteral.exists_of_startsWithDigit hpoint.2
  exact hd

/-- A number is read again if the character behind it does not continue it. -/
theorem reads_number {spelling : String} (hvalid : (Lexeme.number spelling).Valid)
    (hrest : ∀ c, rest.head? = some c → (Lexeme.number spelling).Delimits c) :
    Reads (.number spelling) rest := by
  obtain ⟨hscan, c, cs, heq, hstart⟩ := hvalid
  obtain ⟨ds, hds, hrelocate⟩ := NumberLiteral.scan_relocate hscan
  rw [List.append_nil] at hds
  have hread : NumberLiteral.scan (c :: (cs ++ rest)) = .ok rest := by
    rw [← List.cons_append, ← heq, hds]
    exact hrelocate rest fun d hd => hds ▸ hrest d hd
  obtain ⟨hblank, hstep⟩ := step_number (startsNumber_append hstart rest)
  refine ⟨c, cs ++ rest, by rw [Lexeme.spelling, heq]; rfl, hblank, ?_⟩
  rw [hstep, number, hread]
  have htake : (c :: (cs ++ rest)).take ((c :: (cs ++ rest)).length - rest.length) = c :: cs := by
    rw [← List.cons_append, List.length_append, Nat.add_sub_cancel, List.take_left]
  simp only [htake, ← heq, String.ofList_toList]

/-! ## Punctuation, signs and quotes -/

/-- A punctuation character is read by itself; only a full stop must have no digit behind it. -/
theorem reads_punctuation {p : Char} (hvalid : Step.isPunctuation p = true)
    (hrest : ∀ c, rest.head? = some c → p = '.' → c.isDigit = false) :
    Reads (.punctuation p) rest := by
  refine ⟨p, rest, rfl, ?_⟩
  have hdot : p = '.' → NumberLiteral.startsWithDigit rest = false := by
    intro hp
    cases rest with
    | nil => rfl
    | cons c rest => exact hrest c rfl hp
  have hmem : p ∈ ['(', ')', '[', ']', '\x7b', '\x7d', ',', ':', ';', '@', '.'] :=
    List.contains_iff_mem.1 hvalid
  have hall : ['(', ')', '[', ']', '\x7b', '\x7d', ',', ':', ';', '@', '.'].all (fun d =>
      !isBlank d && !Text.isIdentifierStart d && !d.isDigit) = true := by decide +kernel
  have hp := List.all_eq_true.1 hall p hmem
  simp only [Bool.and_eq_true, Bool.not_eq_true'] at hp
  refine ⟨hp.1.1, ?_⟩
  rw [step, hp.1.2, if_neg (by decide), hp.2, hvalid]
  by_cases hpoint : p = '.'
  · simp [hpoint, hdot hpoint]
  · simp [hpoint]

/-- A sign that may have an equals sign behind it has none. -/
theorem assignable_of_ne {plain assigned : Sign} (h : rest.head? ≠ some '=') :
    assignable plain assigned rest = .lexeme (.sign plain) rest := by
  unfold assignable
  split
  · exact absurd rfl h
  · rfl

/-- A plus sign, doubled or in front of an equals sign. -/
theorem step_plus (cs : List Char) : step '+' cs = match cs with
    | '+' :: cs => .lexeme (.sign .plusPlus) cs
    | cs => assignable .plus .plusAssign cs := rfl

/-- A minus sign, doubled, in front of an equals sign, or the faulty arrow. -/
theorem step_minus (cs : List Char) : step '-' cs = match cs with
    | '-' :: cs => .lexeme (.sign .minusMinus) cs
    | '>' :: ds => .fault .lambda ('-' :: cs) ds
    | cs => assignable .minus .minusAssign cs := rfl

/-- An ampersand, doubled or in front of an equals sign. -/
theorem step_amp (cs : List Char) : step '&' cs = match cs with
    | '&' :: cs => .lexeme (.sign .ampAmp) cs
    | cs => assignable .amp .ampAssign cs := rfl

/-- A bar, doubled or in front of an equals sign. -/
theorem step_bar (cs : List Char) : step '|' cs = match cs with
    | '|' :: cs => .lexeme (.sign .barBar) cs
    | cs => assignable .bar .barAssign cs := rfl

/-- A less sign, doubled or in front of an equals sign. -/
theorem step_less (cs : List Char) : step '<' cs = match cs with
    | '<' :: cs => assignable .shiftLeft .shiftLeftAssign cs
    | cs => assignable .less .lessEqual cs := rfl

/-- A sign is read again if the character behind it does not make it a longer one. -/
theorem reads_sign {s : Sign} (hrest : ∀ c, rest.head? = some c → c ∉ s.continuations) :
    Reads (.sign s) rest := by
  -- A sign that could go on is read to its end only if what follows does not continue it.
  have hne {c : Char} (hc : c ∈ s.continuations) : rest.head? ≠ some c := fun h => hrest c h hc
  cases s with
  | plus =>
    refine ⟨'+', rest, rfl, by decide, ?_⟩
    rw [step_plus]
    split
    · exact absurd List.head?_cons (hne (by decide))
    · exact assignable_of_ne (hne (by decide))
  | minus =>
    refine ⟨'-', rest, rfl, by decide, ?_⟩
    rw [step_minus]
    split
    · exact absurd List.head?_cons (hne (by decide))
    · exact absurd List.head?_cons (hne (by decide))
    · exact assignable_of_ne (hne (by decide))
  | amp =>
    refine ⟨'&', rest, rfl, by decide, ?_⟩
    rw [step_amp]
    split
    · exact absurd List.head?_cons (hne (by decide))
    · exact assignable_of_ne (hne (by decide))
  | bar =>
    refine ⟨'|', rest, rfl, by decide, ?_⟩
    rw [step_bar]
    split
    · exact absurd List.head?_cons (hne (by decide))
    · exact assignable_of_ne (hne (by decide))
  | less =>
    refine ⟨'<', rest, rfl, by decide, ?_⟩
    rw [step_less]
    split
    · exact absurd List.head?_cons (hne (by decide))
    · exact assignable_of_ne (hne (by decide))
  | star | slash | percent | caret | greater | bang | assign =>
    exact ⟨_, rest, rfl, by decide, assignable_of_ne (hne (by decide))⟩
  | shiftLeft => exact ⟨'<', '<' :: rest, rfl, by decide, assignable_of_ne (hne (by decide))⟩
  | _ => exact ⟨_, _, rfl, by decide, rfl⟩

/-- The quote ends the literal. -/
theorem scan_quote {quote : Char} (hquote : quote = '"' ∨ quote = '\'') (cs : List Char) :
    Quoted.scan quote (quote :: cs) = .ok ([], cs) := by
  rw [Quoted.scan.eq_def]
  rcases hquote with rfl | rfl <;> rfl

/-- A character that is neither a quote nor a backslash nor a line end stands for itself. -/
theorem scan_cons_of_ne {quote c : Char} {cs : List Char} (hline : c ≠ '\n') (hreturn : c ≠ '\r')
    (hquote : c ≠ quote) (hslash : c ≠ '\\') :
    Quoted.scan quote (c :: cs) = (Quoted.scan quote cs).map (Quoted.push c) := by
  rw [Quoted.scan.eq_def]
  simp [hline, hreturn, hquote, hslash]

/-- An escaped letter or sign is read as what it stands for. -/
theorem scan_simpleEscape {quote e v : Char} {cs : List Char}
    (hquote : quote = '"' ∨ quote = '\'') (he : Quoted.simpleEscape? e = some v) :
    Quoted.scan quote ('\\' :: e :: cs) = (Quoted.scan quote cs).map (Quoted.push v) := by
  have hu : e ≠ 'u' := by
    rintro rfl
    cases he
  rw [Quoted.scan.eq_def]
  rcases hquote with rfl | rfl <;> simp [hu, he]

/-- What was escaped is read back. -/
theorem scan_escape {quote : Char} (hquote : quote = '"' ∨ quote = '\'') (value : List Char) :
    Quoted.scan quote (value.flatMap (Quoted.escapeChar quote) ++ quote :: rest) =
      .ok (value, rest) := by
  induction value with
  | nil => exact scan_quote hquote rest
  | cons c value ih =>
    rw [List.flatMap_cons, List.append_assoc]
    generalize value.flatMap (Quoted.escapeChar quote) ++ quote :: rest = tail at ih ⊢
    have hread {e : Char} (he : Quoted.simpleEscape? e = some c) :
        Quoted.scan quote ('\\' :: e :: tail) = .ok (c :: value, rest) := by
      rw [scan_simpleEscape hquote he, ih]
      rfl
    unfold Quoted.escapeChar
    split
    · exact hread rfl
    · exact hread rfl
    · exact hread rfl
    · exact hread rfl
    · exact hread rfl
    · exact hread rfl
    · exact hread rfl
    · next hslash hline _ hreturn _ _ _ =>
      by_cases hc : c = quote
      · rw [if_pos hc]
        refine hread ?_
        rcases hquote with rfl | rfl <;> subst hc <;> rfl
      · rw [if_neg hc, List.singleton_append, scan_cons_of_ne hline hreturn hc hslash, ih]
        rfl

/-- A string is read from its spelling, whatever stands behind it. -/
theorem reads_string (value : String) : Reads (.string value) rest := by
  have hspelling : (Lexeme.string value).spelling ++ rest =
      '"' :: (value.toList.flatMap (Quoted.escapeChar '"') ++ '"' :: rest) := by
    rw [Lexeme.spelling, Quoted.print, String.toList_ofList]
    simp
  refine ⟨_, _, hspelling, by decide, ?_⟩
  show Step.string _ = _
  rw [Step.string, scan_escape (.inl rfl)]
  simp only [String.ofList_toList]

/-- A character literal is read from its spelling, whatever stands behind it. -/
theorem reads_character (value : Char) : Reads (.character value) rest := by
  have hspelling : (Lexeme.character value).spelling ++ rest =
      '\'' :: ([value].flatMap (Quoted.escapeChar '\'') ++ '\'' :: rest) := by
    rw [Lexeme.spelling, Quoted.print, String.toList_ofList, String.toList_singleton]
    simp
  refine ⟨_, _, hspelling, by decide, ?_⟩
  show Step.character _ = _
  rw [Step.character, scan_escape (.inr rfl)]

/-- A lexeme is read from its spelling if the character behind it does not continue it. -/
theorem reads_of_delimits {l : Lexeme} (hvalid : l.Valid)
    (hrest : ∀ c, rest.head? = some c → l.Delimits c) : Reads l rest := by
  cases l with
  | punctuation p => exact reads_punctuation hvalid hrest
  | identifier name => exact reads_identifier hvalid hrest
  | keyword word => exact reads_keyword hrest
  | string value => exact reads_string value
  | character value => exact reads_character value
  | sign s => exact reads_sign hrest
  | number spelling => exact reads_number hvalid hrest

/-! ## What is read is valid -/

variable {c : Char} {cs : List Char} {l : Lexeme}

/-- What is read as a word is a name or a keyword. -/
theorem valid_of_word (hc : Text.isIdentifierStart c = true) (h : word c cs = .lexeme l rest) :
    l.Valid := by
  unfold word at h
  extract_lets name tail at h
  split at h
  · obtain ⟨rfl, -⟩ := Step.lexeme.inj h
    trivial
  · next hword =>
    obtain ⟨rfl, -⟩ := Step.lexeme.inj h
    refine ⟨?_, hword⟩
    simp [name, Text.isIdentifier, hc]

/-- What is read as a number can be read as one again. -/
theorem valid_of_number
    (hc : (c.isDigit || (c = '.' && NumberLiteral.startsWithDigit cs)) = true)
    (h : number (c :: cs) = .lexeme l rest) : l.Valid := by
  unfold number at h
  split at h
  · next rest' hscan =>
    obtain ⟨rfl, rfl⟩ := Step.lexeme.inj h
    obtain ⟨ds, heq, hrelocate⟩ := NumberLiteral.scan_relocate hscan
    have htake : (c :: cs).take ((c :: cs).length - rest'.length) = ds := by
      rw [heq, List.length_append, Nat.add_sub_cancel, List.take_left]
    simp only [htake, Lexeme.Valid, String.toList_ofList]
    refine ⟨by simpa using hrelocate [] (by simp [NumberLiteral.Delimits]), ?_⟩
    simp only [Bool.or_eq_true, Bool.and_eq_true, decide_eq_true_eq] at hc
    have hshort : rest'.length ≤ cs.length :=
      (NumberLiteral.suffix_of_scan (hc.imp_right And.left) hscan).length_le
    cases ds with
    | nil =>
      have hlong := congrArg List.length heq
      simp at hlong
      omega
    | cons d ds =>
      obtain ⟨rfl, -⟩ := List.cons.inj heq
      refine ⟨c, ds, rfl, ?_⟩
      simp only [Bool.or_eq_true, Bool.and_eq_true, decide_eq_true_eq]
      refine hc.imp_right ?_
      rintro ⟨rfl, hdigit⟩
      exact ⟨rfl, NumberLiteral.startsWithDigit_of_scan hdigit hscan heq⟩
  · cases h
  · cases h

/-- A sign is valid with an equals sign and without. -/
theorem valid_of_assignable {plain assigned : Sign}
    (h : assignable plain assigned cs = .lexeme l rest) : l.Valid := by
  unfold assignable at h
  split at h <;> obtain ⟨rfl, -⟩ := Step.lexeme.inj h <;> trivial

/-- What is read as an operator is valid. -/
theorem valid_of_operator (h : operator c cs = .lexeme l rest) : l.Valid := by
  unfold operator at h
  split at h <;> try split at h
  all_goals first
    | exact valid_of_assignable h
    | (obtain ⟨rfl, -⟩ := Step.lexeme.inj h; trivial)
    | cases h

/-- Every lexeme that is read is valid. -/
theorem valid_of_step (h : step c cs = .lexeme l rest) : l.Valid := by
  unfold step at h
  split at h
  · next hc => exact valid_of_word hc h
  split at h
  · next hc => exact valid_of_number hc h
  split at h
  · next hc =>
    obtain ⟨rfl, -⟩ := Step.lexeme.inj h
    exact hc
  split at h
  · unfold string at h
    split at h
    · obtain ⟨rfl, -⟩ := Step.lexeme.inj h
      trivial
    · cases h
  split at h
  · unfold character at h
    split at h
    · obtain ⟨rfl, -⟩ := Step.lexeme.inj h
      trivial
    · cases h
    · cases h
  · exact valid_of_operator h

end Step

namespace Token

/-- The tokens of a text are valid. -/
theorem valid_of_readFrom {size : Nat} {cs : List Char} :
    ∀ token ∈ (readFrom size cs).1, token.lexeme.Valid := by
  fun_induction readFrom size cs with
  | case1 => simp
  | case2 cs c tail hcs lexeme rest hs span hshorter tokens error heq ih =>
    intro token htoken
    rcases List.mem_cons.1 htoken with rfl | htoken
    · exact Step.valid_of_step hs
    · exact ih token (by rwa [heq])
  | case3 => simp

/-- The tokens of a text that is read without an error are valid. -/
theorem valid_of_read {size : Nat} {cs : List Char} {tokens : List Token}
    (h : readFrom size cs = (tokens, none)) : ∀ token ∈ tokens, token.lexeme.Valid := by
  obtain rfl : (readFrom size cs).1 = tokens := congrArg Prod.fst h
  exact valid_of_readFrom

end Token

end Stencil
