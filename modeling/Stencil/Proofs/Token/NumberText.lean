import Stencil.Token.Lexer

/-!
# The text of a number literal

How far a number literal reaches depends on the text behind it only through one character. For a
literal that is to be printed and read again, the text in front of that character has to be known
apart from the rest.

`Decimal` lists the texts that the reader of digits takes, one constructor for each of its rounds,
with the two flags of the reader. `Decimal.scan` says that such a text is taken in front of any
character that does not continue it, `decimal_of_scanDecimal` that nothing else is taken. With
hexadecimal digits and the letter for the type, this gives **the law** (`scan_relocate`): a literal
that is read in front of some text is read in front of any other text whose first character does not
continue it (`Delimits`): no character of a word, and no point behind an integer. The last one is
necessary: `not_scan_of_isWhole` says that a point behind an integer is read into it.

**What it does not establish.** The form of the literals is told in Proofs/Token/NumberForm.
-/

namespace Stencil.NumberLiteral

/-- A text of digits, separators, a point and exponents. The first two arguments are the state of the
reader before the text, the last one says whether the literal is still an integer after it. -/
inductive Decimal : Bool → Bool → List Char → Bool → Prop
  | stop {i a : Bool} : Decimal i a [] i
  | digit {i a o : Bool} {c : Char} {cs : List Char} (hc : c.isDigit = true)
      (h : Decimal i true cs o) : Decimal i a (c :: cs) o
  | separator {i o : Bool} {d : Char} {cs : List Char} (hd : d.isDigit = true)
      (h : Decimal i false (d :: cs) o) : Decimal i true ('_' :: d :: cs) o
  | point {a o : Bool} {cs : List Char} (h : Decimal false false cs o) :
      Decimal true a ('.' :: cs) o
  | exponent {i a o : Bool} {c d : Char} {cs : List Char} (hc : c = 'e' ∨ c = 'E')
      (hd : d.isDigit = true) (h : Decimal false true cs o) : Decimal i a (c :: d :: cs) o
  | signedExponent {i a o : Bool} {c s d : Char} {cs : List Char} (hc : c = 'e' ∨ c = 'E')
      (hs : s = '+' ∨ s = '-') (hd : d.isDigit = true) (h : Decimal false false (d :: cs) o) :
      Decimal i a (c :: s :: d :: cs) o

variable {c d : Char} {cs ds rest rest' : List Char} {i a o : Bool}

/-- Whether the character continues the digits. -/
def continuesDecimal (integer : Bool) (c : Char) : Bool :=
  c.isDigit || c = '_' || (c = '.' && integer) || c = 'e' || c = 'E'

/-- The digits end where the text behind them does not continue them. -/
theorem Decimal.scan (h : Decimal i a ds o)
    (hrest : ∀ c, rest.head? = some c → ¬ continuesDecimal o c = true) :
    scanDecimal i a (ds ++ rest) = .ok (o, rest) := by
  -- Each constructor is a round of the reader; the last one stops, as the next character does not
  -- continue the digits.
  induction h with
  | stop =>
    cases rest with
    | nil => rfl
    | cons c cs =>
      have hc := hrest c rfl
      simp only [continuesDecimal, Bool.or_eq_true, decide_eq_true_eq, not_or] at hc
      obtain ⟨⟨⟨⟨hdigit, hseparator⟩, hpoint⟩, he⟩, hE⟩ := hc
      rw [List.nil_append, scanDecimal.eq_def]
      simp [hdigit, hseparator, hpoint, he, hE]
  | digit hc _ ih =>
    rw [List.cons_append, scanDecimal.eq_def]
    simpa [hc] using ih hrest
  | separator hd _ ih =>
    rw [List.cons_append, scanDecimal.eq_def]
    simpa [startsWithDigit, hd] using ih hrest
  | point _ ih =>
    rw [List.cons_append, scanDecimal.eq_def]
    simpa using ih hrest
  | @exponent _ _ _ _ d _ hc hd _ ih =>
    have hsign : ¬ (d = '+' ∨ d = '-') := by
      rintro (rfl | rfl) <;> exact absurd hd (by decide)
    rw [List.cons_append, scanDecimal.eq_def]
    rcases hc with rfl | rfl <;> simpa [hd, hsign] using ih hrest
  | signedExponent hc hs hd _ ih =>
    rw [List.cons_append, scanDecimal.eq_def]
    rcases hc with rfl | rfl <;> rcases hs with rfl | rfl <;>
      simpa [startsWithDigit, hd] using ih hrest

/-- A text that starts with a digit has one in front. -/
theorem exists_of_startsWithDigit (h : startsWithDigit cs = true) :
    ∃ d ds, cs = d :: ds ∧ d.isDigit = true := by
  cases cs with
  | nil => cases h
  | cons d ds => exact ⟨d, ds, rfl, h⟩

/-- A reader that stands before a digit takes it. -/
theorem eq_cons_of_isDigit (hd : d.isDigit = true) (heq : d :: cs = ds ++ rest)
    (hrest : ∀ c, rest.head? = some c → ¬ continuesDecimal o c = true) :
    ∃ us, ds = d :: us ∧ cs = us ++ rest := by
  cases ds with
  | nil =>
    obtain rfl : d :: cs = rest := heq
    exact absurd (by simp [continuesDecimal, hd]) (hrest d rfl)
  | cons e us =>
    obtain ⟨rfl, rfl⟩ := List.cons.inj heq
    exact ⟨us, rfl, rfl⟩

/-- What the reader of digits takes. -/
theorem decimal_of_scanDecimal (h : scanDecimal i a cs = .ok (o, rest)) :
    ∃ ds, cs = ds ++ rest ∧ Decimal i a ds o ∧
      ∀ c, rest.head? = some c → ¬ continuesDecimal o c = true := by
  -- A round that reads on gives a constructor, one that fails has no result to speak of.
  fun_induction scanDecimal i a cs generalizing o rest with
  | case1 i a =>
    obtain ⟨rfl, rfl⟩ := Prod.mk.inj (Except.ok.inj h)
    exact ⟨[], rfl, .stop, by simp⟩
  | case2 i a c cs hc ih =>
    obtain ⟨ds, rfl, hds, hrest⟩ := ih h
    exact ⟨c :: ds, rfl, .digit hc hds, hrest⟩
  | case3 i a cs hstarts hnot ih =>
    obtain ⟨us, heq, hus, hrest⟩ := ih h
    rw [Bool.and_eq_true] at hstarts
    obtain ⟨rfl, hstarts⟩ := hstarts
    obtain ⟨d, ds, rfl, hd⟩ := exists_of_startsWithDigit hstarts
    obtain ⟨vs, rfl, rfl⟩ := eq_cons_of_isDigit hd heq hrest
    exact ⟨'_' :: d :: vs, rfl, .separator hd hus, hrest⟩
  | case4 | case6 | case8 | case10 => cases h
  | case5 i a c cs hnot hne hif ih =>
    obtain ⟨us, rfl, hus, hrest⟩ := ih h
    simp only [Bool.and_eq_true, decide_eq_true_eq] at hif
    obtain ⟨rfl, rfl⟩ := hif
    exact ⟨'.' :: us, rfl, .point hus, hrest⟩
  | case7 i a c hnot hne hpoint hc s ds hs hstarts ih =>
    obtain ⟨us, heq, hus, hrest⟩ := ih h
    obtain ⟨d, ds, rfl, hd⟩ := exists_of_startsWithDigit hstarts
    obtain ⟨vs, rfl, rfl⟩ := eq_cons_of_isDigit hd heq hrest
    exact ⟨c :: s :: d :: vs, rfl, .signedExponent (by simpa using hc) (by simpa using hs) hd hus,
      hrest⟩
  | case9 i a c hnot hne hpoint hc d ds hs hd ih =>
    obtain ⟨us, rfl, hus, hrest⟩ := ih h
    exact ⟨c :: d :: us, rfl, .exponent (by simpa using hc) hd hus, hrest⟩
  | case11 i a c cs hnot hne hpoint hc =>
    obtain ⟨rfl, rfl⟩ := Prod.mk.inj (Except.ok.inj h)
    refine ⟨[], rfl, .stop, ?_⟩
    rintro _ ⟨⟩
    simp_all [continuesDecimal]

/-! ## Whole literals -/

/-- Whether the text has only digits and separators. A point behind such a literal is read into it. -/
def isWhole (cs : List Char) : Bool := cs.all fun c => c.isDigit || c = '_'

/-- What is read is an integer if it has neither a point nor an exponent. -/
theorem Decimal.eq_isWhole (h : Decimal i a cs o) : o = (i && isWhole cs) := by
  induction h with
  | stop => simp [isWhole]
  | digit hc _ ih => simp_all [isWhole]
  | separator hd _ ih => simp_all [isWhole]
  | point _ ih => simp [ih, isWhole]
  | exponent hc _ _ ih | signedExponent hc _ _ _ ih => rcases hc with rfl | rfl <;> simp [ih, isWhole]

/-- What may stand behind the literal `cs` without being read into it. -/
def Delimits (cs rest : List Char) : Prop :=
  ∀ c, rest.head? = some c → Text.isIdentifierPart c = false ∧ (c = '.' → isWhole cs = false)

/-- Hexadecimal digits and separators are characters of words. -/
theorem isIdentifierPart_of_isHexPart (h : isHexPart c = true) : Text.isIdentifierPart c = true := by
  have halpha : c.isAlpha = true → Text.isIdentifierPart c = true := by
    intro hc
    simp [Text.isIdentifierPart, Text.isIdentifierStart, Text.isLetter, hc]
  simp only [isHexPart, Text.isHexDigit, Bool.or_eq_true, Bool.and_eq_true, decide_eq_true_eq] at h
  rcases h with ((hdigit | ⟨hlow, hhigh⟩) | ⟨hlow, hhigh⟩) | rfl
  · simp [Text.isIdentifierPart, Text.isDigit, hdigit]
  · refine halpha ?_
    have hz : c ≤ 'z' := Char.le_trans hhigh (by decide)
    have hlower : c.isLower = true := by
      show (decide ('a' ≤ c) && decide (c ≤ 'z')) = true
      rw [decide_eq_true hlow, decide_eq_true hz]
      rfl
    show (c.isUpper || c.isLower) = true
    rw [hlower, Bool.or_true]
  · refine halpha ?_
    have hz : c ≤ 'Z' := Char.le_trans hhigh (by decide)
    have hupper : c.isUpper = true := decide_eq_true ⟨hlow, hz⟩
    show (c.isUpper || c.isLower) = true
    rw [hupper, Bool.true_or]
  · decide +kernel

/-- What cannot continue a word does not continue a literal, a point apart. -/
theorem not_continuesDecimal (h : Text.isIdentifierPart c = false) (hpoint : c = '.' → o = false) :
    ¬ continuesDecimal o c = true := by
  intro hcontinues
  simp only [continuesDecimal, Bool.or_eq_true, Bool.and_eq_true, decide_eq_true_eq] at hcontinues
  rcases hcontinues with (((hdigit | rfl) | ⟨rfl, ho⟩) | rfl) | rfl
  · simp [Text.isIdentifierPart, Text.isDigit, hdigit] at h
  · exact absurd h (by decide +kernel)
  · simp [hpoint rfl] at ho
  · exact absurd h (by decide +kernel)
  · exact absurd h (by decide +kernel)

/-- The first two characters decide whether a literal is hexadecimal. -/
theorem isHexadecimal_cons (c d : Char) (cs : List Char) :
    isHexadecimal (c :: d :: cs) = (decide (c = '0') && (decide (d = 'x') || decide (d = 'X'))) := by
  unfold isHexadecimal
  split
  · next h =>
    obtain ⟨hzero, h⟩ := List.cons.inj h
    obtain ⟨rfl, -⟩ := List.cons.inj h
    simp [hzero]
  · next hne =>
    by_cases hc : c = '0'
    · exact absurd (by rw [hc]) (hne d cs)
    · simp [hc]

/-- What starts a hexadecimal literal does so in front of any text. -/
theorem isHexadecimal_append_of_pos (h : isHexadecimal cs = true) (rest : List Char) :
    isHexadecimal (cs ++ rest) = true := by
  match cs with
  | c :: d :: cs => rwa [List.cons_append, List.cons_append, isHexadecimal_cons,
      ← isHexadecimal_cons c d cs]
  | [_] | [] => simp [isHexadecimal] at h

/-- An integer without the letter x is not hexadecimal. -/
theorem isHexadecimal_of_isWhole (h : isWhole cs = true) : isHexadecimal cs = false := by
  match cs with
  | c :: d :: cs =>
    rw [isHexadecimal_cons, Bool.and_eq_false_iff]
    refine .inr (Bool.eq_false_iff.2 fun hx => ?_)
    rcases Bool.or_eq_true_iff.1 hx with hx | hx <;> simp_all [isWhole]
  | [_] | [] => simp [isHexadecimal]

/-- What cannot continue a word makes no literal hexadecimal. -/
theorem isHexadecimal_append (h : ∀ c, rest.head? = some c → Text.isIdentifierPart c = false) :
    isHexadecimal (cs ++ rest) = isHexadecimal cs := by
  have hletter {c : Char} (hc : Text.isIdentifierPart c = false) : c ≠ '0' ∧ c ≠ 'x' ∧ c ≠ 'X' := by
    refine ⟨?_, ?_, ?_⟩ <;> rintro rfl <;> exact absurd hc (by decide +kernel)
  rcases cs with _ | ⟨c, _ | ⟨d, cs⟩⟩
  · rcases rest with _ | ⟨d, _ | ⟨e, rest⟩⟩
    · rfl
    · simp [isHexadecimal]
    · obtain ⟨hzero, -⟩ := hletter (h d rfl)
      rw [List.nil_append, isHexadecimal_cons]
      simp [isHexadecimal, hzero]
  · cases rest with
    | nil => rfl
    | cons d rest =>
      obtain ⟨-, hx, hX⟩ := hletter (h d rfl)
      rw [List.singleton_append, isHexadecimal_cons]
      simp [isHexadecimal, hx, hX]
  · rw [List.cons_append, List.cons_append, isHexadecimal_cons, isHexadecimal_cons]

/-- Hexadecimal digits end where the text behind them does not continue them. -/
theorem scanHexadecimal_append {hs : List Char} (hne : hs ≠ [])
    (hall : ∀ c ∈ hs, isHexPart c = true) (hrest : ∀ c, rest.head? = some c → isHexPart c = false) :
    scanHexadecimal (hs ++ rest) =
      .ok (if rest.head? = some 'l' ∨ rest.head? = some 'L' then rest.tail else rest) := by
  have htake : (hs ++ rest).takeWhile isHexPart = hs := by
    rw [List.takeWhile_append_of_pos hall]
    cases rest with
    | nil => simp
    | cons c rest => simp [hrest c rfl]
  have hdrop : (hs ++ rest).dropWhile isHexPart = rest := by
    rw [List.dropWhile_append_of_pos hall]
    cases rest with
    | nil => rfl
    | cons c rest => simp [hrest c rfl]
  rw [scanHexadecimal, htake, hdrop, if_neg (by simpa using hne)]
  cases rest with
  | nil => rfl
  | cons c rest => by_cases hc : c = 'l' ∨ c = 'L' <;> simp [hc]

/-- Hexadecimal digits are read in front of any text that does not continue a word. -/
theorem scanHexadecimal_relocate (h : scanHexadecimal cs = .ok rest) :
    ∃ ds, cs = ds ++ rest ∧ ∀ rest',
      (∀ c, rest'.head? = some c → Text.isIdentifierPart c = false) →
        scanHexadecimal (ds ++ rest') = .ok rest' := by
  obtain ⟨hs, tail, hcs, hne, hall, htail⟩ : ∃ hs tail, cs = hs ++ tail ∧ hs ≠ [] ∧
      (∀ c ∈ hs, isHexPart c = true) ∧ ∀ c, tail.head? = some c → isHexPart c = false := by
    refine ⟨cs.takeWhile isHexPart, cs.dropWhile isHexPart,
      List.takeWhile_append_dropWhile.symm, ?_, fun c hc => ?_, fun c hc => ?_⟩
    · intro hempty
      simp [scanHexadecimal, hempty] at h
    · exact List.all_eq_true.1 List.all_takeWhile c hc
    · simpa [hc] using List.head?_dropWhile_not isHexPart cs
  have hletter {c : Char} (hc : Text.isIdentifierPart c = false) :
      isHexPart c = false ∧ c ≠ 'l' ∧ c ≠ 'L' := by
    refine ⟨Bool.eq_false_iff.2 fun hhex => ?_, ?_, ?_⟩
    · simp [isIdentifierPart_of_isHexPart hhex] at hc
    · rintro rfl
      exact absurd hc (by decide +kernel)
    · rintro rfl
      exact absurd hc (by decide +kernel)
  have hend {c : Char} (hc : c = 'l' ∨ c = 'L') (us : List Char) :
      scanHexadecimal (hs ++ c :: us) = .ok us := by
    rw [scanHexadecimal_append hne hall (by rintro _ ⟨⟩; rcases hc with rfl | rfl <;> decide),
      if_pos (by simpa using hc)]
    rfl
  rw [hcs, scanHexadecimal_append hne hall htail] at h
  split at h
  · next hhead =>
    -- the letter is part of the literal
    obtain ⟨c, us, rfl, hc⟩ : ∃ c us, tail = c :: us ∧ (c = 'l' ∨ c = 'L') := by
      cases tail with
      | nil => simp at hhead
      | cons c us => exact ⟨c, us, rfl, by simpa using hhead⟩
    obtain rfl := Except.ok.inj h
    refine ⟨hs ++ [c], by simp [hcs], fun rest' _ => ?_⟩
    rw [List.append_assoc]
    exact hend hc rest'
  · obtain rfl := Except.ok.inj h
    refine ⟨hs, hcs, fun rest' hrest' => ?_⟩
    rw [scanHexadecimal_append hne hall fun c hc => (hletter (hrest' c hc)).1, if_neg]
    rintro (hl | hL)
    · exact (hletter (hrest' _ hl)).2.1 rfl
    · exact (hletter (hrest' _ hL)).2.2 rfl

/-- The letter behind the digits, if there is one. -/
theorem eq_dropSuffix (integer : Bool) (cs : List Char) :
    dropSuffix integer cs = cs ∨ ∃ c, cs = c :: dropSuffix integer cs ∧
      Text.isIdentifierPart c = true ∧ ∀ us, dropSuffix integer (c :: us) = us := by
  cases cs with
  | nil => exact .inl rfl
  | cons c cs =>
    by_cases hlong : (integer && (decide (c = 'l') || decide (c = 'L'))) = true
    · refine .inr ⟨c, by rw [dropSuffix, if_pos hlong], ?_, fun us => by rw [dropSuffix, if_pos hlong]⟩
      simp only [Bool.and_eq_true, Bool.or_eq_true, decide_eq_true_eq] at hlong
      rcases hlong.2 with rfl | rfl <;> decide +kernel
    · by_cases hreal : (decide (c = 'f') || decide (c = 'F') || decide (c = 'd') ||
        decide (c = 'D')) = true
      · have hdrop (us : List Char) : dropSuffix integer (c :: us) = us := by
          rw [dropSuffix, if_neg hlong, if_pos hreal]
        refine .inr ⟨c, by rw [hdrop], ?_, hdrop⟩
        simp only [Bool.or_eq_true, decide_eq_true_eq] at hreal
        rcases hreal with ((rfl | rfl) | rfl) | rfl <;> decide +kernel
      · exact .inl (by rw [dropSuffix, if_neg hlong, if_neg hreal])

/-- A decimal literal that no word follows. -/
theorem scan_of_scanDecimal (hhex : isHexadecimal cs = false)
    (h : scanDecimal true false cs = .ok (o, ds)) (hrest : dropSuffix o ds = rest)
    (hend : ∀ c, rest.head? = some c → Text.isIdentifierPart c = false) : scan cs = .ok rest := by
  rw [scan, hhex, if_neg (by decide), h]
  simp only [bind, Except.bind, hrest]
  cases rest with
  | nil => rfl
  | cons c rest => simp [hend c rfl]

/-- A decimal literal is the digits, and the letter for the type if there is one. -/
theorem exists_of_scan (hhex : isHexadecimal cs = false) (h : scan cs = .ok rest) :
    ∃ o ds tail, cs = ds ++ tail ∧ Decimal true false ds o ∧
      (∀ c, tail.head? = some c → ¬ continuesDecimal o c = true) ∧ dropSuffix o tail = rest := by
  rw [scan, hhex, if_neg (by decide)] at h
  cases hd : scanDecimal true false cs with
  | error e => simp [hd, bind, Except.bind] at h
  | ok r =>
    obtain ⟨o, tail⟩ := r
    obtain ⟨ds, heq, hds, htail⟩ := decimal_of_scanDecimal hd
    refine ⟨o, ds, tail, heq, hds, htail, ?_⟩
    simp only [hd, bind, Except.bind] at h
    split at h
    · next hdrop =>
      split at h
      · cases h
      · rw [hdrop, Except.ok.inj h]
    · next hdrop => rw [hdrop, Except.ok.inj h]

/-- What ends a literal continues no word. -/
theorem Delimits.isIdentifierPart (h : Delimits cs rest) :
    ∀ c, rest.head? = some c → Text.isIdentifierPart c = false := fun c hc => (h c hc).1

/-- A literal can be read again in front of any text that does not continue it. -/
theorem scan_relocate (h : scan cs = .ok rest) :
    ∃ ds, cs = ds ++ rest ∧ ∀ rest', Delimits ds rest' → scan (ds ++ rest') = .ok rest' := by
  -- The digits are taken by one of two readers; behind decimal digits a letter for the type may
  -- stand, which is part of the literal.
  cases hhex : isHexadecimal cs with
  | true =>
    rw [scan, if_pos hhex] at h
    obtain ⟨c, d, tail, rfl⟩ : ∃ c d tail, cs = c :: d :: tail := by
      match cs with
      | c :: d :: tail => exact ⟨c, d, tail, rfl⟩
      | [_] | [] => simp [isHexadecimal] at hhex
    obtain ⟨ds, htail, hscan⟩ := scanHexadecimal_relocate h
    obtain rfl : tail = ds ++ rest := htail
    rw [isHexadecimal_cons] at hhex
    refine ⟨c :: d :: ds, rfl, fun rest' hrest' => ?_⟩
    rw [scan, List.cons_append, List.cons_append, isHexadecimal_cons, if_pos hhex]
    exact hscan rest' hrest'.isIdentifierPart
  | false =>
    obtain ⟨o, ds, tail, rfl, hds, htail, hrest⟩ := exists_of_scan hhex h
    have hnot {us vs : List Char} (heq : ds ++ tail = us ++ vs) : isHexadecimal us = false :=
      Bool.eq_false_iff.2 fun hus => by
        simp [heq, isHexadecimal_append_of_pos hus vs] at hhex
    rcases eq_dropSuffix o tail with hsame | ⟨c, hc, hpart, hdrop⟩
    · obtain rfl : tail = rest := hsame.symm.trans hrest
      refine ⟨ds, rfl, fun rest' hrest' => ?_⟩
      have hcontinues : ∀ c, rest'.head? = some c → ¬ continuesDecimal o c = true := by
        intro c hc
        refine not_continuesDecimal (hrest' c hc).1 fun hpoint => ?_
        rw [hds.eq_isWhole, (hrest' c hc).2 hpoint]
        rfl
      refine scan_of_scanDecimal ?_ (hds.scan hcontinues) ?_ hrest'.isIdentifierPart
      · rw [isHexadecimal_append hrest'.isIdentifierPart, hnot rfl]
      · rcases eq_dropSuffix o rest' with hsame | ⟨c, hc, hpart, -⟩
        · exact hsame
        · have hend := (hrest' c (by rw [hc]; rfl)).1
          rw [hpart] at hend
          cases hend
    · rw [hrest] at hc
      have heq : ds ++ tail = ds ++ [c] ++ rest := by rw [hc, List.append_assoc]; rfl
      refine ⟨ds ++ [c], heq, fun rest' hrest' => ?_⟩
      have hcontinues : ∀ d, (c :: rest').head? = some d → ¬ continuesDecimal o d = true := by
        rintro _ ⟨⟩
        exact htail c (by rw [hc]; rfl)
      refine scan_of_scanDecimal ?_ ?_ (hdrop rest') hrest'.isIdentifierPart
      · rw [isHexadecimal_append hrest'.isIdentifierPart, hnot heq]
      · rw [List.append_assoc]
        exact hds.scan hcontinues

/-- A literal that starts with a point takes the digit behind it. -/
theorem startsWithDigit_of_scan (hd : startsWithDigit cs = true)
    (h : scan ('.' :: cs) = .ok rest) (heq : '.' :: cs = '.' :: ds ++ rest) :
    startsWithDigit ds = true := by
  obtain ⟨d, cs, rfl, hd⟩ := exists_of_startsWithDigit hd
  obtain ⟨o, us, tail, hus, hdecimal, htail, hdrop⟩ := exists_of_scan (by simp [isHexadecimal_cons]) h
  have hlength : rest.length ≤ tail.length := by
    rw [← hdrop]
    exact (dropSuffix_suffix o tail).length_le
  cases us with
  | nil =>
    cases hdecimal
    obtain rfl : '.' :: d :: cs = tail := hus
    exact absurd (by decide) (htail '.' rfl)
  | cons u us =>
    obtain ⟨-, hus⟩ := List.cons.inj hus
    obtain ⟨vs, rfl, rfl⟩ := eq_cons_of_isDigit hd hus htail
    cases ds with
    | nil =>
      have hlong := congrArg List.length (List.cons.inj heq).2
      simp at hlong
      omega
    | cons e ds =>
      obtain ⟨rfl, -⟩ := List.cons.inj (List.cons.inj heq).2
      exact hd

/-- A point behind a whole literal is read into it. -/
theorem not_scan_of_isWhole (h : isWhole cs = true) : scan (cs ++ '.' :: rest) ≠ .ok ('.' :: rest) := by
  intro hscan
  have hdigits : ∀ c ∈ cs, c.isDigit = true ∨ c = '_' := by simpa [isWhole] using h
  have hhex : isHexadecimal (cs ++ '.' :: rest) = false := by
    rw [isHexadecimal_append (by rintro _ ⟨⟩; decide +kernel), isHexadecimal_of_isWhole h]
  obtain ⟨o, ds, tail, heq, hds, htail, hdrop⟩ := exists_of_scan hhex hscan
  rcases eq_dropSuffix o tail with hsame | ⟨c, hc, -, -⟩
  · obtain rfl : tail = '.' :: rest := hsame.symm.trans hdrop
    obtain rfl : cs = ds := List.append_cancel_right heq
    obtain rfl : o = true := by rw [hds.eq_isWhole, h]; rfl
    exact htail '.' rfl (by decide)
  · rw [hdrop] at hc
    obtain rfl : cs = ds ++ [c] :=
      List.append_cancel_right (heq.trans (by rw [hc, List.append_assoc]; rfl))
    refine htail c (by rw [hc]; rfl) ?_
    rcases hdigits c (by simp) with hdigit | rfl
    · simp [continuesDecimal, hdigit]
    · rfl

end Stencil.NumberLiteral
