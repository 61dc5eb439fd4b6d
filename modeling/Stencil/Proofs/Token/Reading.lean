import Stencil.Token.Cursor

/-!
# Reading a text token by token

`Token.readFrom` passes over the blanks in front of a text, takes one lexeme and goes on with what is
left; that it ends is because a lexeme always takes something. `readFrom_eq` is this round without the
bookkeeping for termination, and the lemmas that follow have one case each: the text is empty
(`readFrom_nil`), starts with a blank (`readFrom_blank`), with a lexeme (`readFrom_lexeme`) or with a
fault (`readFrom_fault`). Every later statement about tokens goes by these four and by induction on
the text.

The second section takes the two lexemes that are met most: a word, which reaches up to the first
character that cannot continue it (`readFrom_word`), and a character that is a lexeme by itself
(`readFrom_punctuation`).

**What it does not establish.** The spans of tokens are sizes of rests here, and nothing is said of
what they cut out of the text.
-/

namespace Stencil.Token

open Text (byteSize isBlank isIdentifierStart isIdentifierPart)

variable {size : Nat} {c : Char} {cs rest : List Char}

/-- One round of reading, without the bookkeeping for termination. -/
theorem readFrom_eq (size : Nat) (cs : List Char) :
    readFrom size cs =
      match cs.dropWhile isBlank with
      | [] => ([], none)
      | c :: tail =>
        match step c tail with
        | .lexeme lexeme rest =>
          (⟨lexeme, size - byteSize (c :: tail), size - byteSize rest⟩ :: (readFrom size rest).1,
            (readFrom size rest).2)
        | .fault cause start rest =>
          ([], some ⟨cause, size - byteSize start, size - byteSize rest⟩) := by
  rw [readFrom]
  split
  · next h => simp only [h]
  · next c tail h =>
    split
    · next lexeme rest hs => simp only [h, hs]
    · next cause start rest hs => simp only [h, hs]

theorem readFrom_nil (size : Nat) : readFrom size [] = ([], none) := readFrom_eq size []

theorem readFrom_blank (h : isBlank c = true) : readFrom size (c :: cs) = readFrom size cs := by
  rw [readFrom_eq size (c :: cs), readFrom_eq size cs, List.dropWhile_cons, if_pos h]

/-- A lexeme in front becomes the first token, and reading goes on behind it. -/
theorem readFrom_lexeme (size : Nat) {lexeme : Lexeme} (hc : ¬ isBlank c = true)
    (hs : step c cs = .lexeme lexeme rest) :
    readFrom size (c :: cs) =
      (⟨lexeme, size - byteSize (c :: cs), size - byteSize rest⟩ :: (readFrom size rest).1,
        (readFrom size rest).2) := by
  rw [readFrom_eq, List.dropWhile_cons, if_neg hc]
  simp only [hs]

/-- A fault ends the reading. -/
theorem readFrom_fault (size : Nat) {cause : LexFault} {start : List Char}
    (hc : ¬ isBlank c = true)
    (hs : step c cs = .fault cause start rest) :
    readFrom size (c :: cs) =
      ([], some ⟨cause, size - byteSize start, size - byteSize rest⟩) := by
  rw [readFrom_eq, List.dropWhile_cons, if_neg hc]
  simp only [hs]

/-! ## Words -/

/-- A blank is no character of an identifier. -/
theorem not_isIdentifierPart_of_isBlank (h : isBlank c = true) : ¬ isIdentifierPart c = true := by
  simp only [isBlank, Bool.or_eq_true, beq_iff_eq] at h
  rcases h with ((((((rfl | rfl) | rfl) | rfl) | rfl) | rfl) | rfl) <;> decide +kernel

theorem not_isBlank_of_isIdentifierPart (h : isIdentifierPart c = true) : ¬ isBlank c = true :=
  fun hblank => not_isIdentifierPart_of_isBlank hblank h

/-- The lexeme that a word is. -/
def wordLexeme (name : String) : Lexeme :=
  match Keyword.ofText? name with
  | some keyword => .keyword keyword
  | none => .identifier name

/-- A name is spelled like an identifier and is not reserved. -/
def IsName (name : String) : Prop :=
  Text.isIdentifier name.toList = true ∧ Keyword.ofText? name = none

instance (name : String) : Decidable (IsName name) := inferInstanceAs (Decidable (_ ∧ _))

/-- A name that is no keyword is read as itself. -/
theorem wordLexeme_of_isName {name : String} (h : IsName name) :
    wordLexeme name = .identifier name := by
  rw [wordLexeme, h.2]

/-- A word reaches up to the first character that cannot continue it. -/
theorem step_word {name : List Char} (hname : Text.isIdentifier name = true)
    (hrest : ∀ d, rest.head? = some d → ¬ isIdentifierPart d = true) :
    ∃ c cs, name ++ rest = c :: cs ∧ ¬ isBlank c = true ∧
      step c cs = .lexeme (wordLexeme (String.ofList name)) rest := by
  cases name with
  | nil => cases hname
  | cons c cs =>
    simp only [Text.isIdentifier, Bool.and_eq_true] at hname
    obtain ⟨hstart, hparts⟩ := hname
    have hpart : isIdentifierPart c = true := by simp [isIdentifierPart, hstart]
    have htake : (cs ++ rest).takeWhile isIdentifierPart = cs := by
      rw [List.takeWhile_append_of_pos fun d hd => List.all_eq_true.1 hparts d hd]
      cases rest with
      | nil => simp
      | cons d rest => simp [hrest d rfl]
    have hdrop : (cs ++ rest).dropWhile isIdentifierPart = rest := by
      rw [List.dropWhile_append_of_pos fun d hd => List.all_eq_true.1 hparts d hd]
      cases rest with
      | nil => rfl
      | cons d rest => simp [hrest d rfl]
    refine ⟨c, cs ++ rest, rfl, not_isBlank_of_isIdentifierPart hpart, ?_⟩
    rw [step, if_pos hstart]
    simp only [Step.word, htake, hdrop, wordLexeme]
    cases Keyword.ofText? (String.ofList (c :: cs)) <;> rfl

/-- A word in front of a text that cannot continue it. -/
theorem readFrom_word (size : Nat) (rest : List Char) {name : List Char}
    (hname : Text.isIdentifier name = true)
    (hrest : ∀ d, rest.head? = some d → ¬ isIdentifierPart d = true) :
    readFrom size (name ++ rest) =
      (⟨wordLexeme (String.ofList name), size - byteSize (name ++ rest), size - byteSize rest⟩ ::
        (readFrom size rest).1, (readFrom size rest).2) := by
  obtain ⟨c, cs, heq, hc, hs⟩ := step_word hname hrest
  rw [heq]
  exact readFrom_lexeme size hc hs

/-- A character that is a lexeme by itself. -/
theorem readFrom_punctuation (hc : Step.isPunctuation c = true) (hdot : c ≠ '.') :
    readFrom size (c :: cs) =
      (⟨.punctuation c, size - byteSize (c :: cs), size - byteSize cs⟩ :: (readFrom size cs).1,
        (readFrom size cs).2) := by
  have hcases : ¬ isBlank c = true ∧ step c cs = .lexeme (.punctuation c) cs := by
    simp only [Step.isPunctuation, List.contains_iff_mem, List.mem_cons, List.not_mem_nil,
      or_false] at hc
    rcases hc with rfl | rfl | rfl | rfl | rfl | rfl | rfl | rfl | rfl | rfl | rfl
    all_goals first | exact absurd rfl hdot | exact ⟨by decide, by rfl⟩
  exact readFrom_lexeme size hcases.1 hcases.2

end Stencil.Token
