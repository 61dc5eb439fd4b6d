import Stencil.Proofs.Text.Search
import Stencil.Proofs.Text.Trim
import Stencil.Proofs.Token.Cursor
import Stencil.Proofs.Token.Spelling
import Mathlib.Data.List.TakeWhile

/-!
# What a reader takes from the front of a text

A parenthesis is read as a cast if the text in it reads as a type, so a part of a text is read by
itself and as part of the whole, and the two readings have to agree.

**The law** (`Token.readFrom_append`): what stands behind a text does not change how the text is read,
unless it continues the last lexeme. The tokens of the longer text are those of the text, moved to
where it stands, and those of what stands behind. A closing parenthesis continues no lexeme
(`Text.closes_parenthesis`), so the text in front of it is always read as by itself.

It holds of each lexeme (`Step.step_append`), by one lemma for each reader: a lexeme that ends before
the text does ends there whatever follows, and one that ends with the text must not be continued. The
longest cases are signs, whose reader looks at two or three characters (`operator_append`), and
numbers (`NumberLiteral.scan_append`).

In the other direction, a text without blanks at its ends that is read as one word is that word
(`Token.eq_spelling_of_readFrom`): a name is known by its characters.

**What it does not establish.** Texts that are read with an error are not looked at.
-/

namespace Stencil

open Text (isBlank isIdentifierPart)

variable {size : Nat} {c : Char} {cs rest : List Char} {l : Lexeme}

/-- The lexeme is an identifier or a reserved word. -/
def Lexeme.IsWord : Lexeme → Prop
  | .identifier _ | .keyword _ => True
  | _ => False

namespace Step

/-- What is read as a word is its spelling. -/
theorem word_eq_spelling (h : word c cs = .lexeme l rest) : c :: cs = l.spelling ++ rest := by
  unfold word at h
  extract_lets name tail at h
  have hname : c :: cs = name.toList ++ tail := by
    simp [name, tail, List.takeWhile_append_dropWhile]
  split at h
  · next keyword hword =>
    obtain ⟨rfl, rfl⟩ := Step.lexeme.inj h
    have htext := List.find?_some (show Keyword.all.find? (·.text == name) = some keyword from hword)
    rw [hname, Lexeme.spelling, eq_of_beq htext]
  · obtain ⟨rfl, rfl⟩ := Step.lexeme.inj h
    exact hname

/-- No operator is a word. -/
theorem not_isWord_of_operator (h : operator c cs = .lexeme l rest) : ¬ l.IsWord := by
  have hassign {plain assigned : Sign} {cs : List Char}
      (h : assignable plain assigned cs = .lexeme l rest) : ¬ l.IsWord := by
    unfold assignable at h
    split at h <;> obtain ⟨rfl, -⟩ := Step.lexeme.inj h <;> exact id
  unfold operator at h
  split at h <;> try split at h
  all_goals first
    | exact hassign h
    | (obtain ⟨rfl, -⟩ := Step.lexeme.inj h; exact id)
    | cases h

/-- A word is read from the characters that it is spelled with. -/
theorem eq_spelling_of_isWord (hl : l.IsWord) (h : step c cs = .lexeme l rest) :
    c :: cs = l.spelling ++ rest := by
  -- The readers are asked in order; all but the first and the last give a lexeme that is no word.
  unfold step at h
  split at h
  · exact word_eq_spelling h
  split at h
  · unfold number at h
    split at h
    · obtain ⟨rfl, -⟩ := Step.lexeme.inj h
      exact hl.elim
    · cases h
    · cases h
  split at h
  · obtain ⟨rfl, -⟩ := Step.lexeme.inj h
    exact hl.elim
  split at h
  · unfold string at h
    split at h
    · obtain ⟨rfl, -⟩ := Step.lexeme.inj h
      exact hl.elim
    · cases h
  split at h
  · unfold character at h
    split at h
    · obtain ⟨rfl, -⟩ := Step.lexeme.inj h
      exact hl.elim
    · cases h
    · cases h
  · exact absurd hl (not_isWord_of_operator h)

end Step

/-! ## Texts that go on -/

namespace NumberLiteral

variable {tail : List Char}

/-- Hexadecimal digits that end before the text does end there whatever stands behind the text. -/
theorem scanHexadecimal_append_rest (h : scanHexadecimal cs = .ok rest) (hne : rest ≠ []) :
    scanHexadecimal (cs ++ tail) = .ok (rest ++ tail) := by
  have hdrop : cs.dropWhile isHexPart ≠ [] := by
    intro hempty
    rw [scanHexadecimal, hempty] at h
    split at h
    · cases h
    · exact hne (Except.ok.inj h).symm
  obtain ⟨c, us, hcs⟩ := List.exists_cons_of_ne_nil hdrop
  have hsplit : cs = cs.takeWhile isHexPart ++ c :: us := by
    rw [← hcs, List.takeWhile_append_dropWhile]
  have hc : ∀ d, (c :: us).head? = some d → isHexPart d = false := by
    intro d hd
    have hnot := List.head?_dropWhile_not isHexPart cs
    rw [hcs, hd] at hnot
    exact hnot
  have htake : cs.takeWhile isHexPart ≠ [] := by
    intro hempty
    rw [scanHexadecimal, hempty] at h
    cases h
  have hall : ∀ d ∈ cs.takeWhile isHexPart, isHexPart d = true :=
    List.all_eq_true.1 List.all_takeWhile
  rw [hsplit, scanHexadecimal_append htake hall hc] at h
  rw [hsplit, List.append_assoc, scanHexadecimal_append htake hall (by simpa using hc),
    ← Except.ok.inj h, List.cons_append, List.head?_cons, List.head?_cons]
  split <;> rfl

/-- The letter behind the digits is there already, or is not. -/
theorem dropSuffix_append (integer : Bool) (hne : cs ≠ []) :
    dropSuffix integer (cs ++ tail) = dropSuffix integer cs ++ tail := by
  obtain ⟨c, us, rfl⟩ := List.exists_cons_of_ne_nil hne
  rw [List.cons_append, dropSuffix, dropSuffix]
  split
  · rfl
  split <;> rfl

/-- No decimal literal is followed by a character of a word. -/
theorem isIdentifierPart_of_scan (hhex : isHexadecimal cs = false) (h : scan cs = .ok rest) :
    ∀ d, rest.head? = some d → isIdentifierPart d = false := by
  intro d hd
  rw [scan, hhex, if_neg (by decide)] at h
  obtain ⟨⟨o, unread⟩, -, h⟩ := bind_eq_ok.1 h
  simp only at h
  split at h
  · next e us hdrop =>
    split at h
    · cases h
    · next hpart =>
      obtain rfl := Except.ok.inj h
      obtain rfl : e = d := Option.some.inj hd
      simpa using hpart
  · obtain rfl := Except.ok.inj h
    cases hd

/-- A hexadecimal literal starts with two characters. -/
theorem two_le_length_of_isHexadecimal (h : isHexadecimal cs = true) : 2 ≤ cs.length := by
  rcases cs with _ | ⟨c, _ | ⟨d, cs⟩⟩
  · simp [isHexadecimal] at h
  · simp [isHexadecimal] at h
  · exact Nat.le_add_left 2 _

/-- What is no hexadecimal literal does not become one by what stands behind it, except for a lone
zero. -/
theorem isHexadecimal_append_eq_false (hhex : isHexadecimal cs = false) (hne : cs ≠ [])
    (hzero : cs ≠ ['0']) : isHexadecimal (cs ++ tail) = false := by
  rcases cs with _ | ⟨c, _ | ⟨d, cs⟩⟩
  · exact absurd rfl hne
  · have hc : c ≠ '0' := fun h => hzero (by rw [h])
    cases tail with
    | nil => exact hhex
    | cons d tail => simp [isHexadecimal_cons, hc]
  · simpa [isHexadecimal_cons] using hhex

/-- A literal that ends before the text does ends there whatever stands behind the text. -/
theorem scan_append (h : scan cs = .ok rest) (htail : rest = [] → Delimits cs tail) :
    scan (cs ++ tail) = .ok (rest ++ tail) := by
  by_cases hrest : rest = []
  · subst hrest
    obtain ⟨ds, hds, hrelocate⟩ := scan_relocate h
    rw [List.append_nil] at hds
    subst hds
    exact hrelocate tail (htail rfl)
  · cases hhex : isHexadecimal cs with
    | true =>
      rw [scan, if_pos hhex] at h
      rw [scan, if_pos (isHexadecimal_append_of_pos hhex tail), List.drop_append_of_le_length]
      · exact scanHexadecimal_append_rest h hrest
      · exact two_le_length_of_isHexadecimal hhex
    | false =>
      obtain ⟨o, ds, unread, rfl, hdecimal, hstop, hdrop⟩ := exists_of_scan hhex h
      have hunread : unread ≠ [] := by
        rintro rfl
        exact hrest hdrop.symm
      have hhead {us : List Char} (hne : us ≠ []) : (us ++ tail).head? = us.head? := by
        obtain ⟨d, us, rfl⟩ := List.exists_cons_of_ne_nil hne
        rfl
      -- A lone zero is the one text that more characters could turn into the front of a hexadecimal
      -- number.
      have hzero : ds ++ unread ≠ ['0'] := by
        intro hall
        rcases List.append_eq_singleton_iff.1 hall with ⟨-, rfl⟩ | ⟨-, rfl⟩
        · exact hstop '0' rfl (by simp [continuesDecimal])
        · exact hunread rfl
      have hscan : scanDecimal true false (ds ++ unread ++ tail) = .ok (o, unread ++ tail) := by
        rw [List.append_assoc]
        exact hdecimal.scan (hhead hunread ▸ hstop)
      refine scan_of_scanDecimal (isHexadecimal_append_eq_false hhex (by simp [hunread]) hzero)
        hscan ?_ ?_
      · rw [dropSuffix_append o hunread, hdrop]
      · exact hhead hrest ▸ isIdentifierPart_of_scan hhex h

end NumberLiteral

/-- A closed literal is read whatever stands behind it. -/
theorem Quoted.scan_append {quote : Char} {value : List Char} (h : scan quote cs = .ok (value, rest))
    (tail : List Char) : scan quote (cs ++ tail) = .ok (value, rest ++ tail) := by
  fun_induction scan quote cs generalizing value with
  | case3 cs hline =>
    obtain ⟨rfl, rfl⟩ := Prod.mk.inj (Except.ok.inj h)
    rw [List.cons_append, scan.eq_def]
    simp [hline]
  | case4 c cs hline hquote hslash ih =>
    obtain ⟨us, rfl, hrest⟩ := ok_of_map_push h
    rw [List.cons_append, scan.eq_def]
    simp [hline, hquote, hslash, ih hrest, Except.map, push]
  | case6 c hline hquote hslash d₁ d₂ d₃ d₄ us v hv ih =>
    obtain ⟨vs, rfl, hrest⟩ := ok_of_map_push h
    simp only [List.cons_append]
    rw [scan.eq_def]
    simp only [hline, hquote, hslash, hv, ih hrest]
    rfl
  | case9 c hline hquote hslash e es he v hv ih =>
    obtain ⟨vs, rfl, hrest⟩ := ok_of_map_push h
    simp only [List.cons_append]
    rw [scan.eq_def]
    simp only [hline, hquote, hslash, he, hv, ih hrest]
    rfl
  | _ => simp at h

namespace Step

variable {tail : List Char}

/-- A word, in front of a longer text. -/
theorem word_append (h : word c cs = .lexeme l rest)
    (htail : rest = [] → ∀ d, tail.head? = some d → l.Delimits d) :
    word c (cs ++ tail) = .lexeme l (rest ++ tail) := by
  have hrest : rest = cs.dropWhile isIdentifierPart ∧
      ∀ d, l.Delimits d → isIdentifierPart d = false := by
    unfold word at h
    extract_lets name after at h
    split at h <;> obtain ⟨rfl, rfl⟩ := Step.lexeme.inj h <;> exact ⟨rfl, fun _ hd => hd⟩
  obtain ⟨rfl, hword⟩ := hrest
  obtain ⟨htake, hdrop⟩ := Text.span_append fun hnil d hd => hword d (htail hnil d hd)
  rw [word, htake, hdrop]
  unfold word at h
  simp only at h ⊢
  split at h
  · obtain ⟨rfl, -⟩ := Step.lexeme.inj h
    rfl
  · obtain ⟨rfl, -⟩ := Step.lexeme.inj h
    rfl

/-- A sign that may have an equals sign behind it, in front of a longer text. -/
theorem assignable_append {plain assigned : Sign} (hplain : '=' ∈ plain.continuations)
    (h : assignable plain assigned cs = .lexeme l rest)
    (htail : rest = [] → ∀ d, tail.head? = some d → l.Delimits d) :
    assignable plain assigned (cs ++ tail) = .lexeme l (rest ++ tail) := by
  unfold assignable at h
  split at h
  · obtain ⟨rfl, rfl⟩ := Step.lexeme.inj h
    rfl
  · next hne =>
    obtain ⟨rfl, rfl⟩ := Step.lexeme.inj h
    apply assignable_of_ne
    intro hhead
    cases cs with
    | nil => exact htail rfl '=' hhead hplain
    | cons d cs =>
      obtain rfl : d = '=' := Option.some.inj hhead
      exact hne cs rfl

/-- A sign that the character behind it does not double is not doubled by a longer text either. -/
theorem ne_of_assignable {plain assigned : Sign} {x : Char} (hx : x ∈ plain.continuations)
    (h : assignable plain assigned cs = .lexeme l rest)
    (htail : rest = [] → ∀ d, tail.head? = some d → l.Delimits d)
    (hne : ∀ us, cs = x :: us → False) : ∀ us, cs ++ tail = x :: us → False := by
  intro us heq
  cases cs with
  | nil =>
    obtain ⟨rfl, rfl⟩ := Step.lexeme.inj h
    exact htail rfl x (by rw [← List.nil_append tail, heq]; rfl) hx
  | cons d ds =>
    obtain ⟨rfl, -⟩ := List.cons.inj heq
    exact hne ds rfl

/-- An operator, in front of a longer text: whether it is doubled is decided by the text itself. -/
theorem operator_append (h : operator c cs = .lexeme l rest)
    (htail : rest = [] → ∀ d, tail.head? = some d → l.Delimits d) :
    operator c (cs ++ tail) = .lexeme l (rest ++ tail) := by
  -- a doubled sign is found in the longer text, and a single one is not doubled there
  unfold operator at h
  split at h
  · split at h
    · obtain ⟨rfl, rfl⟩ := Step.lexeme.inj h
      rfl
    · next hplus =>
      rw [operator]
      · exact assignable_append (by decide) h htail
      · exact ne_of_assignable (by decide) h htail hplus
  · split at h
    · obtain ⟨rfl, rfl⟩ := Step.lexeme.inj h
      rfl
    · cases h
    · next hminus hgreater =>
      rw [operator]
      · exact assignable_append (by decide) h htail
      · exact ne_of_assignable (by decide) h htail hminus
      · exact ne_of_assignable (by decide) h htail hgreater
  · exact assignable_append (by decide) h htail
  · exact assignable_append (by decide) h htail
  · exact assignable_append (by decide) h htail
  · exact assignable_append (by decide) h htail
  · split at h
    · obtain ⟨rfl, rfl⟩ := Step.lexeme.inj h
      rfl
    · next hamp =>
      rw [operator]
      · exact assignable_append (by decide) h htail
      · exact ne_of_assignable (by decide) h htail hamp
  · split at h
    · obtain ⟨rfl, rfl⟩ := Step.lexeme.inj h
      rfl
    · next hbar =>
      rw [operator]
      · exact assignable_append (by decide) h htail
      · exact ne_of_assignable (by decide) h htail hbar
  · split at h
    · exact assignable_append (by decide) h htail
    · next hless =>
      rw [operator]
      · exact assignable_append (by decide) h htail
      · exact ne_of_assignable (by decide) h htail hless
  · exact assignable_append (by decide) h htail
  · obtain ⟨rfl, rfl⟩ := Step.lexeme.inj h
    rfl
  · obtain ⟨rfl, rfl⟩ := Step.lexeme.inj h
    rfl
  · exact assignable_append (by decide) h htail
  · exact assignable_append (by decide) h htail
  · cases h

/-- A number, in front of a longer text. -/
theorem number_append (h : number (c :: cs) = .lexeme l rest)
    (htail : rest = [] → ∀ d, tail.head? = some d → l.Delimits d) :
    number (c :: (cs ++ tail)) = .lexeme l (rest ++ tail) := by
  unfold number at h
  split at h
  · next after hscan =>
    obtain ⟨rfl, rfl⟩ := Step.lexeme.inj h
    have hmore : NumberLiteral.scan (c :: (cs ++ tail)) = .ok (after ++ tail) := by
      refine NumberLiteral.scan_append hscan fun hnil d hd => ?_
      have hdelimits := htail hnil d hd
      simpa [Lexeme.Delimits, hnil] using hdelimits
    obtain ⟨ds, hds, -⟩ := NumberLiteral.scan_relocate hscan
    rw [number, hmore]
    have htake : (c :: (cs ++ tail)).take ((c :: (cs ++ tail)).length - (after ++ tail).length) =
        (c :: cs).take ((c :: cs).length - after.length) := by
      rw [← List.cons_append, hds]
      simp
    simp only [htake]
  · cases h
  · cases h

/-- What starts no number does not start one in front of a longer text, unless it is a full stop and a
digit follows. -/
theorem startsNumber_append_of_neg
    (hc : ¬ (c.isDigit || (c = '.' && NumberLiteral.startsWithDigit cs)) = true)
    (htail : c = '.' → cs = [] → ∀ d, tail.head? = some d → d.isDigit = false) :
    ¬ (c.isDigit || (c = '.' && NumberLiteral.startsWithDigit (cs ++ tail))) = true := by
  cases cs with
  | cons d cs => exact hc
  | nil =>
    by_cases hdot : c = '.'
    · subst hdot
      cases tail with
      | nil => exact hc
      | cons d tail => simpa [NumberLiteral.startsWithDigit] using htail rfl rfl d rfl
    · simpa [hdot] using hc

/-- A string, in front of a longer text. -/
theorem string_append (h : string cs = .lexeme l rest) (tail : List Char) :
    string (cs ++ tail) = .lexeme l (rest ++ tail) := by
  unfold string at h
  split at h
  · next hscan =>
    obtain ⟨rfl, rfl⟩ := Step.lexeme.inj h
    rw [string, Quoted.scan_append hscan]
  · cases h

/-- A character literal, in front of a longer text. -/
theorem character_append (h : character cs = .lexeme l rest) (tail : List Char) :
    character (cs ++ tail) = .lexeme l (rest ++ tail) := by
  unfold character at h
  split at h
  · next hscan =>
    obtain ⟨rfl, rfl⟩ := Step.lexeme.inj h
    rw [character, Quoted.scan_append hscan]
  · cases h
  · cases h

/-- A lexeme that ends before the text does ends there whatever stands behind the text. -/
theorem step_append (h : step c cs = .lexeme l rest)
    (htail : rest = [] → ∀ d, tail.head? = some d → l.Delimits d) :
    step c (cs ++ tail) = .lexeme l (rest ++ tail) := by
  -- The readers are asked in order, of the text and of the longer one; both go to the same reader.
  unfold step at h
  rw [step]
  split at h
  · next hword =>
    rw [if_pos hword]
    exact word_append h htail
  rw [if_neg ‹_›]
  split at h
  · next hnumber =>
    rw [if_pos (startsNumber_append hnumber tail)]
    exact number_append h htail
  · next hword hnumber =>
    have hdot : c = '.' → cs = [] → ∀ d, tail.head? = some d → d.isDigit = false := by
      rintro rfl rfl d hd
      obtain ⟨rfl, rfl⟩ := Step.lexeme.inj h
      exact htail rfl d hd rfl
    rw [if_neg (startsNumber_append_of_neg hnumber hdot)]
    split at h
    · next hpunctuation =>
      rw [if_pos hpunctuation]
      obtain ⟨rfl, rfl⟩ := Step.lexeme.inj h
      rfl
    rw [if_neg ‹_›]
    split at h
    · next hquote =>
      rw [if_pos hquote]
      exact string_append h tail
    rw [if_neg ‹_›]
    split at h
    · next hquote =>
      rw [if_pos hquote]
      exact character_append h tail
    · rw [if_neg ‹_›]
      exact operator_append h htail

end Step

namespace Token

/-- Only blanks are read as no token. -/
theorem readFrom_eq_nil (h : readFrom size cs = ([], none)) : ∀ c ∈ cs, isBlank c = true := by
  rw [readFrom_eq] at h
  split at h
  · next hdrop => exact List.dropWhile_eq_nil_iff.1 hdrop
  · split at h
    · simp at h
    · simp at h

/-- A text without blanks at its ends that is read as one token is that token and nothing else. -/
theorem step_of_readFrom {span : Span} (hfirst : ∀ c, cs.head? = some c → isBlank c = false)
    (hlast : ∀ c, cs.getLast? = some c → isBlank c = false)
    (h : readFrom size cs = ([⟨l, span⟩], none)) :
    ∃ c tail, cs = c :: tail ∧ step c tail = .lexeme l [] := by
  rw [readFrom_eq, Text.dropWhile_eq_self_of_head? hfirst] at h
  split at h
  · simp at h
  · next c tail =>
    split at h
    · next lexeme rest hstep =>
      obtain ⟨htokens, hnone⟩ := Prod.mk.inj h
      obtain ⟨htoken, hnil⟩ := List.cons.inj htokens
      obtain rfl : lexeme = l := congrArg Token.lexeme htoken
      have hblank := readFrom_eq_nil (show readFrom size rest = ([], none) from
        Prod.ext_iff.2 ⟨hnil, hnone⟩)
      obtain rfl : rest = [] := by
        cases hrest : rest.getLast? with
        | none => exact List.getLast?_eq_none_iff.1 hrest
        | some d =>
          -- the last blank would be the last character of the text
          obtain ⟨front, hfront⟩ := (suffix_of_step hstep).trans (List.suffix_cons c tail)
          have hd := hlast d (by rw [← hfront, List.getLast?_append, hrest]; rfl)
          rw [hblank d (List.mem_of_getLast? hrest)] at hd
          cases hd
      exact ⟨c, tail, rfl, hstep⟩
    · simp at h

/-- A text without blanks at its ends that is read as one word is that word. -/
theorem eq_spelling_of_readFrom {span : Span} (hl : l.IsWord)
    (hfirst : ∀ c, cs.head? = some c → isBlank c = false)
    (hlast : ∀ c, cs.getLast? = some c → isBlank c = false)
    (h : readFrom size cs = ([⟨l, span⟩], none)) : cs = l.spelling := by
  obtain ⟨c, tail, rfl, hstep⟩ := step_of_readFrom hfirst hlast h
  rw [Step.eq_spelling_of_isWord hl hstep, List.append_nil]

end Token

/-! ## Tokens at other places -/

/-- The span `n` bytes further to the right. -/
def Span.shift (n : Nat) (s : Span) : Span := ⟨n + s.start, n + s.stop⟩

/-- The token `n` bytes further to the right. -/
def Token.shift (n : Nat) (t : Token) : Token := ⟨t.lexeme, t.span.shift n⟩

@[simp] theorem Token.lexeme_shift (n : Nat) (t : Token) : (t.shift n).lexeme = t.lexeme := rfl

/-- Tokens that are moved together touch as before. -/
@[simp] theorem Token.touches_shift (n : Nat) (t u : Token) :
    (t.shift n).touches (u.shift n) = t.touches u := by
  rw [Bool.eq_iff_iff, touches, touches, beq_iff_eq, beq_iff_eq]
  exact Nat.add_left_cancel_iff

/-- The size of a text is that of its characters. -/
theorem Text.byteSize_toList (s : String) : Text.byteSize s.toList = s.utf8ByteSize := by
  rw [← String.ofList_toList (s := s)]
  generalize s.toList = cs
  rw [String.toList_ofList]
  induction cs with
  | nil => rfl
  | cons c cs ih => simp [ih]

/-- No lexeme is continued by the text. -/
def Text.Closes (tail : List Char) : Prop := ∀ d, tail.head? = some d → ∀ l : Lexeme, l.Delimits d

/-- The end of a text continues nothing. -/
theorem Text.closes_nil : Text.Closes [] := nofun

/-- A closing parenthesis continues no lexeme. -/
theorem Text.closes_parenthesis (cs : List Char) : Text.Closes (')' :: cs) := by
  rintro d ⟨⟩ l
  have hpart : isIdentifierPart ')' = false := by decide +kernel
  cases l with
  | identifier | keyword => exact hpart
  | number => exact ⟨hpart, nofun⟩
  | punctuation => exact fun _ => by decide
  | sign s => cases s <;> simp [Lexeme.Delimits, Sign.continuations]
  | string | character => trivial

namespace Token

/-- The tokens of a text are read in front of a text that continues no lexeme, too, wherever the two
stand. -/
theorem readFrom_append {ts : List Token} {k : Nat} {tail : List Char}
    (h : readFrom size cs = (ts, none)) (hsize : Text.byteSize cs ≤ size)
    (htail : Text.Closes tail) :
    readFrom (k + size + Text.byteSize tail) (cs ++ tail) =
      (ts.map (·.shift k) ++ (readFrom (k + size + Text.byteSize tail) tail).1,
        (readFrom (k + size + Text.byteSize tail) tail).2) := by
  -- The induction follows the rounds of reading the text alone.
  fun_induction readFrom size cs generalizing ts with
  | case1 cs hblank =>
    obtain ⟨rfl, -⟩ := Prod.mk.inj h
    rw [readFrom_eq, readFrom_eq _ tail, List.dropWhile_append, hblank]
    rfl
  | case2 cs c after hcs lexeme rest hs span hshorter tokens error heq =>
    rename_i ih
    obtain ⟨rfl, rfl⟩ := Prod.mk.inj h
    have hafter : Text.byteSize (c :: after) ≤ size := by
      obtain ⟨us, hus⟩ := List.dropWhile_suffix (l := cs) isBlank
      rw [hcs] at hus
      rw [← hus, Text.byteSize_append] at hsize
      omega
    have hrest : Text.byteSize rest ≤ Text.byteSize (c :: after) := by
      obtain ⟨us, rfl⟩ := suffix_of_step hs
      simp only [Text.byteSize_cons, Text.byteSize_append]
      omega
    have hdrop : (cs ++ tail).dropWhile isBlank = c :: (after ++ tail) := by
      rw [List.dropWhile_append, hcs]
      rfl
    have hstep := Step.step_append hs fun _ d hd => htail d hd lexeme
    have hspan : (⟨lexeme, ⟨k + size + Text.byteSize tail - Text.byteSize (c :: (after ++ tail)),
        k + size + Text.byteSize tail - Text.byteSize (rest ++ tail)⟩⟩ : Token) =
        Token.shift k ⟨lexeme, span⟩ := by
      simp only [Token.shift, Span.shift, span, Text.byteSize_cons, Text.byteSize_append,
        Token.mk.injEq, Span.mk.injEq, true_and] at hafter hrest ⊢
      omega
    rw [readFrom_eq, hdrop]
    simp only [hstep, ih heq (Nat.le_trans hrest hafter), hspan, List.map_cons, List.cons_append]
  | case3 => cases h

end Token

end Stencil
