import Stencil.Proofs.Token.Spelling

/-!
# The form of number literals

How a number literal is put together: digits with separators between them, a point, exponents and a
letter for the type. `WellFormed` is the form that a literal should have. The reader is more liberal
in two places (`Accepted`): it takes separators anywhere among hexadecimal digits, and any number of
exponents.

**The law** (`Token.number_spelling`): the numbers that are read from some text are exactly the
accepted literals, and an accepted literal is well-formed if and only if its separators stand between
hexadecimal digits and it has no more than one exponent. `valid_number_iff` is the first half,
`wellFormed_iff` the second.

The reader goes along the characters with two flags, and `Decimal` (Proofs/Token/NumberText) lists
what it takes, round by round. `Decimal.parts` sorts that into digits, fraction and exponents, from
the end of the text to its front; `Mantissa.decimal_flatten` goes the other way. Both halves of the
law are then about parts. The exponents are counted by the letters that start them
(`countP_isExponentMark`).

**What it does not establish.** Nothing is said of the value of a number: literals are kept as they
are written.
-/

namespace Stencil

namespace NumberLiteral

/-- Digits, with separators between two digits only. -/
inductive Digits (isDigit : Char → Bool) : List Char → Prop
  | one {c : Char} (hc : isDigit c = true) : Digits isDigit [c]
  | next {c : Char} {ds : List Char} (hc : isDigit c = true) (h : Digits isDigit ds) :
      Digits isDigit (c :: ds)
  | separated {c : Char} {ds : List Char} (hc : isDigit c = true) (h : Digits isDigit ds) :
      Digits isDigit (c :: '_' :: ds)

/-- Digits with at most one point, and whether there is one. -/
inductive Mantissa : Bool → List Char → Prop
  | whole {ds : List Char} (h : Digits Char.isDigit ds) : Mantissa false ds
  | pointBehind {ds : List Char} (h : Digits Char.isDigit ds) : Mantissa true (ds ++ ['.'])
  | pointBefore {ds : List Char} (h : Digits Char.isDigit ds) : Mantissa true ('.' :: ds)
  | pointBetween {ds fs : List Char} (h : Digits Char.isDigit ds) (h' : Digits Char.isDigit fs) :
      Mantissa true (ds ++ '.' :: fs)

/-- The letter of an exponent, a sign if there is one, and digits. -/
inductive Exponent : List Char → Prop
  | mk {c : Char} {sign ds : List Char} (hc : c = 'e' ∨ c = 'E')
      (hsign : sign = [] ∨ sign = ['+'] ∨ sign = ['-']) (h : Digits Char.isDigit ds) :
      Exponent (c :: (sign ++ ds))

/-- The letter of a long literal, or nothing. -/
def IsLongSuffix (suffix : List Char) : Prop := suffix = [] ∨ suffix = ['l'] ∨ suffix = ['L']

/-- The letter of a real literal. -/
def IsRealSuffix (suffix : List Char) : Prop :=
  suffix = ['f'] ∨ suffix = ['F'] ∨ suffix = ['d'] ∨ suffix = ['D']

/-- The literals whose hexadecimal digits and whose number of exponents are as given. Only a literal
without point and exponent can be a long one. -/
inductive Form (hexadecimal : List Char → Prop) (count : Nat → Prop) : List Char → Prop
  | hexadecimal {x : Char} {digits suffix : List Char} (hx : x = 'x' ∨ x = 'X')
      (hdigits : hexadecimal digits) (hsuffix : IsLongSuffix suffix) :
      Form hexadecimal count ('0' :: x :: (digits ++ suffix))
  | decimal {point : Bool} {mantissa suffix : List Char} {exponents : List (List Char)}
      (hmantissa : Mantissa point mantissa) (hexponents : ∀ e ∈ exponents, Exponent e)
      (hcount : count exponents.length)
      (hsuffix : IsRealSuffix suffix ∨
        IsLongSuffix suffix ∧ (suffix ≠ [] → point = false ∧ exponents = [])) :
      Form hexadecimal count (mantissa ++ (exponents.flatten ++ suffix))

/-- Separators stand between two digits, and there is at most one exponent. -/
def WellFormed : List Char → Prop := Form (Digits Text.isHexDigit) (· ≤ 1)

/-- Hexadecimal digits and separators in any order, and any number of exponents. -/
def Accepted : List Char → Prop :=
  Form (fun ds => ds ≠ [] ∧ ∀ c ∈ ds, isHexPart c = true) fun _ => True

variable {c : Char} {cs ds : List Char} {i a o : Bool}

/-! ## What the reader of digits takes -/

/-- The digits that go on behind a digit, or behind something else. -/
inductive MoreDigits : Bool → List Char → Prop
  | none {a : Bool} : MoreDigits a []
  | digits {a : Bool} {ds : List Char} (h : Digits Char.isDigit ds) : MoreDigits a ds
  | separated {ds : List Char} (h : Digits Char.isDigit ds) : MoreDigits true ('_' :: ds)

/-- A point and the digits behind it, if there may be a point and there is one. -/
inductive Fraction : Bool → List Char → Prop
  | none {i : Bool} : Fraction i []
  | point {ds : List Char} (h : MoreDigits false ds) : Fraction true ('.' :: ds)

/-- A digit in front of more digits, or of a separator and digits. -/
theorem Digits.of_more (hc : c.isDigit = true) (h : MoreDigits true ds) :
    Digits Char.isDigit (c :: ds) := by
  cases h with
  | none => exact .one hc
  | digits h => exact .next hc h
  | separated h => exact .separated hc h

/-- Exponents and what stands behind them start with no digit and with no point. -/
theorem head?_exponents {es : List (List Char)} (tail : List Char) (hes : ∀ e ∈ es, Exponent e)
    (htail : ∀ c, tail.head? = some c → c.isDigit = false ∧ c ≠ '.') :
    ∀ c, (es.flatten ++ tail).head? = some c → c.isDigit = false ∧ c ≠ '.' := by
  cases es with
  | nil => exact htail
  | cons e es =>
    obtain ⟨hc, -, -⟩ := hes e List.mem_cons_self
    rintro _ ⟨⟩
    rcases hc with rfl | rfl <;> decide

/-- Digits are there if a digit stands in front. -/
theorem MoreDigits.digits_of_head {fraction tail : List Char} (h : MoreDigits false ds)
    (hfraction : Fraction i fraction)
    (htail : ∀ c, tail.head? = some c → c.isDigit = false ∧ c ≠ '.') (hc : c.isDigit = true)
    (heq : c :: cs = ds ++ (fraction ++ tail)) : Digits Char.isDigit ds := by
  cases h with
  | digits h => exact h
  | none =>
    cases hfraction with
    | none =>
      have hnot := (htail c (by rw [show tail = c :: cs from heq.symm]; rfl)).1
      rw [hc] at hnot
      cases hnot
    | point _ =>
      obtain ⟨rfl, -⟩ := List.cons.inj heq
      exact absurd hc (by decide)

/-- The parts of what the reader of digits takes. -/
theorem Decimal.parts (h : Decimal i a cs o) :
    ∃ (ds fraction : List Char) (es : List (List Char)), cs = ds ++ (fraction ++ es.flatten) ∧
      MoreDigits a ds ∧ Fraction i fraction ∧ (∀ e ∈ es, Exponent e) ∧
      o = (i && fraction.isEmpty && es.isEmpty) := by
  have hnone {es : List (List Char)} (hes : ∀ e ∈ es, Exponent e) :
      ∀ c, es.flatten.head? = some c → c.isDigit = false ∧ c ≠ '.' := by
    simpa using head?_exponents [] hes nofun
  -- Each round puts a character in front of the parts that were found behind it. Behind the point and
  -- behind an exponent there is no fraction any more.
  induction h with
  | stop => exact ⟨[], [], [], rfl, .none, .none, nofun, by simp⟩
  | @digit i a o c cs hc _ ih =>
    obtain ⟨ds, fraction, es, rfl, hds, hfraction, hes, ho⟩ := ih
    exact ⟨c :: ds, fraction, es, rfl, .digits (.of_more hc hds), hfraction, hes, ho⟩
  | @separator i o d cs hd _ ih =>
    obtain ⟨ds, fraction, es, heq, hds, hfraction, hes, ho⟩ := ih
    have hdigits := hds.digits_of_head hfraction (hnone hes) hd heq
    exact ⟨'_' :: ds, fraction, es, by rw [heq]; rfl, .separated hdigits, hfraction, hes, ho⟩
  | @point a o cs _ ih =>
    obtain ⟨ds, fraction, es, rfl, hds, hfraction, hes, rfl⟩ := ih
    cases hfraction
    exact ⟨[], '.' :: ds, es, rfl, .none, .point hds, hes, rfl⟩
  | @exponent i a o c d cs hc hd _ ih =>
    obtain ⟨ds, fraction, es, rfl, hds, hfraction, hes, rfl⟩ := ih
    cases hfraction
    have hexponent : Exponent (c :: ([] ++ d :: ds)) := .mk hc (.inl rfl) (.of_more hd hds)
    exact ⟨[], [], (c :: d :: ds) :: es, by simp, .none, .none,
      List.forall_mem_cons.2 ⟨hexponent, hes⟩, by simp⟩
  | @signedExponent i a o c s d cs hc hs hd _ ih =>
    obtain ⟨ds, fraction, es, heq, hds, hfraction, hes, rfl⟩ := ih
    cases hfraction
    have hnothing : Fraction false [] := .none
    have hdigits := hds.digits_of_head hnothing (hnone hes) hd heq
    have hexponent : Exponent (c :: ([s] ++ ds)) := .mk hc (.inr (by simpa using hs)) hdigits
    refine ⟨[], [], (c :: ([s] ++ ds)) :: es, ?_, .none, .none,
      List.forall_mem_cons.2 ⟨hexponent, hes⟩, by simp⟩
    simp only [heq, List.nil_append, List.flatten_cons, List.cons_append]

/-- What stands behind the digits is nothing or one letter. -/
theorem dropSuffix_eq_nil {suffix : List Char} : dropSuffix o suffix = [] ↔
    IsRealSuffix suffix ∨ IsLongSuffix suffix ∧ (suffix ≠ [] → o = true) := by
  cases suffix with
  | nil => simp [dropSuffix, IsLongSuffix]
  | cons c cs =>
    rw [dropSuffix]
    by_cases hlong : c = 'l' ∨ c = 'L'
    · rcases hlong with rfl | rfl <;> cases o <;> simp [IsRealSuffix, IsLongSuffix]
    · have hnot : ¬ IsLongSuffix (c :: cs) := by
        rintro (hnil | hl | hL)
        · cases hnil
        · exact hlong (.inl (List.cons.inj hl).1)
        · exact hlong (.inr (List.cons.inj hL).1)
      by_cases hreal : c = 'f' ∨ c = 'F' ∨ c = 'd' ∨ c = 'D'
      · rcases hreal with rfl | rfl | rfl | rfl <;> simp [IsRealSuffix, IsLongSuffix]
      · simp only [not_or] at hlong hreal
        simp [hnot, hlong, hreal, IsRealSuffix]

/-- A literal that starts with a digit, or with a point and a digit, has a digit. -/
theorem Mantissa.of_parts {fraction rest : List Char} (hds : MoreDigits false ds)
    (hfraction : Fraction true fraction)
    (hrest : ∀ c, rest.head? = some c → c.isDigit = false ∧ c ≠ '.')
    (hstart : (c.isDigit || (c = '.' && startsWithDigit cs)) = true)
    (heq : c :: cs = ds ++ (fraction ++ rest)) : Mantissa (!fraction.isEmpty) (ds ++ fraction) := by
  cases hds with
  | none =>
    cases hfraction with
    | none =>
      obtain rfl : c :: cs = rest := heq
      obtain ⟨hdigit, hpoint⟩ := hrest c rfl
      simp [hdigit, hpoint] at hstart
    | point h =>
      obtain ⟨rfl, rfl⟩ := List.cons.inj heq
      obtain ⟨d, tail, htail, hd⟩ := exists_of_startsWithDigit (by simpa using hstart)
      have hnothing : Fraction false [] := .none
      exact .pointBefore (h.digits_of_head hnothing hrest hd htail.symm)
  | digits h =>
    cases hfraction with
    | none => simpa using Mantissa.whole h
    | point h' =>
      cases h' with
      | none => exact .pointBehind h
      | digits h' => exact .pointBetween h h'

/-! ## The parts are taken -/

/-- Digits are a digit and more of them. -/
theorem Digits.exists_cons (h : Digits Char.isDigit ds) : ∃ d tail, ds = d :: tail ∧
    d.isDigit = true ∧
    ∀ {i o : Bool} {rest : List Char}, Decimal i true rest o → Decimal i true (tail ++ rest) o := by
  induction h with
  | @one c hc => exact ⟨c, [], rfl, hc, id⟩
  | @next c _ hc _ ih =>
    obtain ⟨d, tail, rfl, hd, htail⟩ := ih
    exact ⟨c, d :: tail, rfl, hc, fun h => .digit hd (htail h)⟩
  | @separated c _ hc _ ih =>
    obtain ⟨d, tail, rfl, hd, htail⟩ := ih
    exact ⟨c, '_' :: d :: tail, rfl, hc, fun h => .separator hd (.digit hd (htail h))⟩

/-- The reader takes digits and goes on behind them. -/
theorem Digits.decimal {rest : List Char} (h : Digits Char.isDigit ds)
    (hrest : Decimal i true rest o) : Decimal i a (ds ++ rest) o := by
  obtain ⟨d, tail, rfl, hd, htail⟩ := h.exists_cons
  exact .digit hd (htail hrest)

/-- The reader takes a mantissa and goes on behind it. -/
theorem Mantissa.decimal {point : Bool} {mantissa rest : List Char} (h : Mantissa point mantissa)
    (hrest : ∀ a, Decimal (!point) a rest o) : Decimal true false (mantissa ++ rest) o := by
  cases h with
  | whole h => exact h.decimal (hrest true)
  | pointBehind h =>
    rw [List.append_assoc]
    exact h.decimal (.point (hrest false))
  | pointBefore h => exact .point (h.decimal (hrest true))
  | pointBetween h h' =>
    rw [List.append_assoc]
    exact h.decimal (.point (h'.decimal (hrest true)))

/-- The reader takes exponents, whatever it took before. -/
theorem decimal_exponents {es : List (List Char)} (hes : ∀ e ∈ es, Exponent e) :
    ∀ {i a : Bool}, Decimal i a es.flatten (i && es.isEmpty) := by
  induction es with
  | nil =>
    intro i a
    rw [List.isEmpty_nil, Bool.and_true]
    exact .stop
  | cons e es ih =>
    intro i a
    obtain ⟨he, hothers⟩ := List.forall_mem_cons.1 hes
    rw [List.flatten_cons, List.isEmpty_cons, Bool.and_false]
    cases he with
    | @mk c sign ds hc hsign h =>
      obtain ⟨d, tail, rfl, hd, htail⟩ := h.exists_cons
      rcases hsign with rfl | rfl | rfl
      · exact .exponent hc hd (htail (ih hothers))
      · exact .signedExponent hc (.inl rfl) hd (.digit hd (htail (ih hothers)))
      · exact .signedExponent hc (.inr rfl) hd (.digit hd (htail (ih hothers)))

/-- The reader of digits takes a mantissa and exponents. -/
theorem Mantissa.decimal_flatten {point : Bool} {mantissa : List Char} {es : List (List Char)}
    (h : Mantissa point mantissa) (hes : ∀ e ∈ es, Exponent e) :
    Decimal true false (mantissa ++ es.flatten) (!point && es.isEmpty) :=
  h.decimal fun _ => decimal_exponents hes

/-! ## What the reader of literals takes -/

/-- A decimal literal has no letter that could start hexadecimal digits. -/
theorem Decimal.ne_of_mem (h : Decimal i a cs o) : ∀ c ∈ cs, c ≠ 'x' ∧ c ≠ 'X' := by
  have hdigit {c : Char} (hc : c.isDigit = true) : c ≠ 'x' ∧ c ≠ 'X' := by
    constructor <;> rintro rfl <;> exact absurd hc (by decide)
  have hmark {c : Char} (hc : c = 'e' ∨ c = 'E') : c ≠ 'x' ∧ c ≠ 'X' := by
    rcases hc with rfl | rfl <;> decide
  induction h with
  | stop => nofun
  | digit hc _ ih => exact List.forall_mem_cons.2 ⟨hdigit hc, ih⟩
  | separator hd _ ih | point _ ih => exact List.forall_mem_cons.2 ⟨by decide, ih⟩
  | exponent hc hd _ ih =>
    exact List.forall_mem_cons.2 ⟨hmark hc, List.forall_mem_cons.2 ⟨hdigit hd, ih⟩⟩
  | signedExponent hc hs _ _ ih =>
    refine List.forall_mem_cons.2 ⟨hmark hc, List.forall_mem_cons.2 ⟨?_, ih⟩⟩
    rcases hs with rfl | rfl <;> decide

/-- Without the letter x, a literal is not hexadecimal. -/
theorem isHexadecimal_eq_false (h : ∀ c ∈ cs, c ≠ 'x' ∧ c ≠ 'X') : isHexadecimal cs = false := by
  match cs with
  | c :: d :: cs =>
    obtain ⟨hx, hX⟩ := h d (by simp)
    simp [isHexadecimal_cons, hx, hX]
  | [_] | [] => simp [isHexadecimal]

/-- What holds of the letters for types holds of what stands behind the digits. -/
theorem forall_mem_suffix {p : Char → Prop} [DecidablePred p] {suffix : List Char}
    (hp : ['f', 'F', 'd', 'D', 'l', 'L'].all (p ·) = true)
    (h : IsRealSuffix suffix ∨ IsLongSuffix suffix) : ∀ c ∈ suffix, p c := by
  have hsubset : suffix ⊆ ['f', 'F', 'd', 'D', 'l', 'L'] := by
    rcases h with (rfl | rfl | rfl | rfl) | (rfl | rfl | rfl) <;> decide
  exact fun c hc => of_decide_eq_true (List.all_eq_true.1 hp c (hsubset hc))

/-- The letter for the type is no hexadecimal digit. -/
theorem IsLongSuffix.not_isHexPart {suffix : List Char} (h : IsLongSuffix suffix) :
    ∀ c ∈ suffix, isHexPart c = false := by
  have hall : suffix.all (!isHexPart ·) = true := by rcases h with rfl | rfl | rfl <;> decide
  simpa using hall

/-- A hexadecimal literal that is taken as a whole. -/
theorem exists_of_scanHexadecimal (h : scanHexadecimal cs = .ok []) :
    ∃ digits suffix, cs = digits ++ suffix ∧ digits ≠ [] ∧ (∀ c ∈ digits, isHexPart c = true) ∧
      IsLongSuffix suffix := by
  refine ⟨cs.takeWhile isHexPart, cs.dropWhile isHexPart, List.takeWhile_append_dropWhile.symm, ?_,
    fun c hc => List.all_eq_true.1 List.all_takeWhile c hc, ?_⟩
  · intro hempty
    simp [scanHexadecimal, hempty] at h
  · unfold scanHexadecimal at h
    simp only at h
    split at h
    · cases h
    split at h
    · next c tail heq =>
      split at h
      · next hc =>
        obtain rfl := Except.ok.inj h
        rw [heq]
        simpa [IsLongSuffix] using hc
      · rw [Except.ok.inj h] at heq
        cases heq
    · next heq => exact .inl heq

/-- A literal that is taken as a whole has an accepted form. -/
theorem accepted_of_scan (hstart : (c.isDigit || (c = '.' && startsWithDigit cs)) = true)
    (h : scan (c :: cs) = .ok []) : Accepted (c :: cs) := by
  cases hhex : isHexadecimal (c :: cs) with
  | true =>
    rw [scan, if_pos hhex] at h
    cases cs with
    | nil => simp [isHexadecimal] at hhex
    | cons x cs =>
      obtain ⟨digits, suffix, rfl, hdigits, hparts, hsuffix⟩ := exists_of_scanHexadecimal h
      simp only [isHexadecimal_cons, Bool.and_eq_true, Bool.or_eq_true, decide_eq_true_eq] at hhex
      obtain ⟨rfl, hx⟩ := hhex
      exact .hexadecimal hx ⟨hdigits, hparts⟩ hsuffix
  | false =>
    obtain ⟨o, taken, suffix, heq, hdecimal, -, hdrop⟩ := exists_of_scan hhex h
    obtain ⟨ds, fraction, es, rfl, hds, hfraction, hes, rfl⟩ := hdecimal.parts
    have hsuffix := dropSuffix_eq_nil.1 hdrop
    have hletter : ∀ c ∈ suffix, c.isDigit = false ∧ c ≠ '.' :=
      forall_mem_suffix (by decide) (hsuffix.imp_right And.left)
    have hrest : ∀ c, (es.flatten ++ suffix).head? = some c → c.isDigit = false ∧ c ≠ '.' :=
      head?_exponents suffix hes fun c hc => hletter c (List.mem_of_mem_head? hc)
    have hparts : c :: cs = ds ++ (fraction ++ (es.flatten ++ suffix)) := by simp [heq]
    have hmantissa := Mantissa.of_parts hds hfraction hrest hstart hparts
    rw [hparts, ← List.append_assoc]
    refine .decimal hmantissa hes trivial (hsuffix.imp_right fun hlong => ⟨hlong.1, fun hne => ?_⟩)
    simpa using hlong.2 hne

/-- The first character of a mantissa. -/
theorem Mantissa.exists_cons {point : Bool} {mantissa : List Char} (h : Mantissa point mantissa) :
    ∃ c cs, mantissa = c :: cs ∧ (c.isDigit || (c = '.' && startsWithDigit cs)) = true := by
  cases h with
  | whole h | pointBehind h | pointBetween h _ =>
    obtain ⟨d, tail, rfl, hd, -⟩ := h.exists_cons
    exact ⟨d, _, rfl, by rw [hd]; rfl⟩
  | pointBefore h =>
    obtain ⟨d, tail, rfl, hd, -⟩ := h.exists_cons
    exact ⟨'.', d :: tail, rfl, by simpa [startsWithDigit] using hd⟩

/-- Decimal literals do not start like hexadecimal ones. -/
theorem Mantissa.isHexadecimal_append {point : Bool} {mantissa suffix : List Char}
    {es : List (List Char)} (h : Mantissa point mantissa) (hes : ∀ e ∈ es, Exponent e)
    (hsuffix : IsRealSuffix suffix ∨ IsLongSuffix suffix) :
    isHexadecimal (mantissa ++ (es.flatten ++ suffix)) = false := by
  rw [← List.append_assoc]
  exact isHexadecimal_eq_false (List.forall_mem_append.2
    ⟨(h.decimal_flatten hes).ne_of_mem, forall_mem_suffix (by decide) hsuffix⟩)

/-- A text of an accepted form is read as a number, up to its end. -/
theorem Accepted.valid {spelling : String} (h : Accepted spelling.toList) :
    (Lexeme.number spelling).Valid := by
  rw [Lexeme.Valid]
  generalize spelling.toList = cs at h
  cases h with
  | @hexadecimal x digits suffix hx hdigits hsuffix =>
    refine ⟨?_, '0', _, rfl, rfl⟩
    rw [scan, isHexadecimal_cons, if_pos (by simpa using hx)]
    refine (scanHexadecimal_append hdigits.1 hdigits.2 fun c hc =>
      hsuffix.not_isHexPart c (List.mem_of_mem_head? hc)).trans ?_
    rcases hsuffix with rfl | rfl | rfl <;> rfl
  | @decimal point mantissa suffix es hmantissa hes _ hsuffix =>
    have hletter := hsuffix.imp_right And.left
    have hdecimal := hmantissa.decimal_flatten hes
    have hscan : scanDecimal true false (mantissa ++ (es.flatten ++ suffix)) =
        .ok (!point && es.isEmpty, suffix) := by
      rw [← List.append_assoc]
      generalize (!point && es.isEmpty) = o at hdecimal ⊢
      have hends : ∀ c ∈ suffix, ¬ continuesDecimal o c = true :=
        forall_mem_suffix (by cases o <;> decide) hletter
      exact hdecimal.scan fun c hc => hends c (List.mem_of_mem_head? hc)
    have hdrop : dropSuffix (!point && es.isEmpty) suffix = [] := by
      refine dropSuffix_eq_nil.2 (hsuffix.imp_right fun hlong => ⟨hlong.1, fun hne => ?_⟩)
      simpa using hlong.2 hne
    obtain ⟨c, cs, rfl, hc⟩ := hmantissa.exists_cons
    exact ⟨scan_of_scanDecimal (hmantissa.isHexadecimal_append hes hletter) hscan hdrop (by simp),
      c, _, rfl, Step.startsNumber_append hc _⟩

/-- A number can be read if and only if its spelling has an accepted form. -/
theorem valid_number_iff {spelling : String} :
    (Lexeme.number spelling).Valid ↔ Accepted spelling.toList := by
  refine ⟨?_, Accepted.valid⟩
  rintro ⟨hscan, c, cs, heq, hstart⟩
  rw [heq] at hscan ⊢
  exact accepted_of_scan hstart hscan

/-! ## The well-formed literals among the accepted ones -/

/-- Whether the character starts an exponent. -/
def isExponentMark (c : Char) : Bool := c = 'e' || c = 'E'

/-- A form with laxer parts is a laxer form. -/
theorem Form.mono {hexadecimal hexadecimal' : List Char → Prop} {count count' : Nat → Prop}
    (hhex : ∀ ds, hexadecimal ds → hexadecimal' ds) (hcount : ∀ n, count n → count' n)
    (h : Form hexadecimal count cs) : Form hexadecimal' count' cs := by
  cases h with
  | hexadecimal hx hdigits hsuffix => exact .hexadecimal hx (hhex _ hdigits) hsuffix
  | decimal hmantissa hes hn hsuffix => exact .decimal hmantissa hes (hcount _ hn) hsuffix

/-- Digits with separators have nothing else in them. -/
theorem Digits.of_mem {isDigit : Char → Bool} (h : Digits isDigit ds) :
    ∀ c ∈ ds, isDigit c = true ∨ c = '_' := by
  induction h with
  | one hc => exact List.forall_mem_cons.2 ⟨.inl hc, nofun⟩
  | next hc _ ih => exact List.forall_mem_cons.2 ⟨.inl hc, ih⟩
  | separated hc _ ih =>
    exact List.forall_mem_cons.2 ⟨.inl hc, List.forall_mem_cons.2 ⟨.inr rfl, ih⟩⟩

/-- Digits with separators are taken as hexadecimal digits. -/
theorem Digits.isHexPart (h : Digits Text.isHexDigit ds) :
    ds ≠ [] ∧ ∀ c ∈ ds, isHexPart c = true := by
  constructor
  · rintro rfl
    cases h
  · intro c hc
    rw [NumberLiteral.isHexPart, Bool.or_eq_true, decide_eq_true_eq]
    exact h.of_mem c hc

/-- The digits are found again in front of the letter for the type. -/
theorem takeWhile_isHexPart {suffix : List Char} (hds : ∀ c ∈ ds, isHexPart c = true)
    (hsuffix : IsLongSuffix suffix) : (ds ++ suffix).takeWhile isHexPart = ds := by
  rw [List.takeWhile_append_of_pos hds]
  rcases hsuffix with rfl | rfl | rfl <;> exact List.append_nil ds

/-- Digits have no letter that starts an exponent. -/
theorem Digits.countP_isExponentMark (h : Digits Char.isDigit ds) :
    ds.countP isExponentMark = 0 := by
  refine List.countP_eq_zero.2 fun c hc hmark => ?_
  rw [isExponentMark, Bool.or_eq_true, decide_eq_true_eq, decide_eq_true_eq] at hmark
  rcases h.of_mem c hc with hdigit | rfl
  · rcases hmark with rfl | rfl <;> exact absurd hdigit (by decide)
  · exact absurd hmark (by decide)

/-- A mantissa has no letter that starts an exponent. -/
theorem Mantissa.countP_isExponentMark {point : Bool} {mantissa : List Char}
    (h : Mantissa point mantissa) : mantissa.countP isExponentMark = 0 := by
  have hpoint {cs : List Char} (hcs : cs.countP isExponentMark = 0) :
      ('.' :: cs).countP isExponentMark = 0 := by
    rwa [List.countP_cons_of_neg (by decide)]
  cases h with
  | whole h => exact h.countP_isExponentMark
  | pointBehind h => rw [List.countP_append, h.countP_isExponentMark, hpoint rfl]
  | pointBefore h => exact hpoint h.countP_isExponentMark
  | pointBetween h h' =>
    rw [List.countP_append, h.countP_isExponentMark, hpoint h'.countP_isExponentMark]

/-- An exponent has one such letter. -/
theorem Exponent.countP_isExponentMark {e : List Char} (h : Exponent e) :
    e.countP isExponentMark = 1 := by
  cases h with
  | @mk c sign ds hc hsign h =>
    have hmark : isExponentMark c = true := by rcases hc with rfl | rfl <;> rfl
    have hnone : sign.countP isExponentMark = 0 := by
      rcases hsign with rfl | rfl | rfl <;> decide
    rw [List.countP_cons_of_pos hmark, List.countP_append, hnone, h.countP_isExponentMark]

/-- A decimal literal has as many exponents as there are letters that start one. -/
theorem countP_isExponentMark {point : Bool} {mantissa suffix : List Char}
    {es : List (List Char)} (hmantissa : Mantissa point mantissa) (hes : ∀ e ∈ es, Exponent e)
    (hsuffix : IsRealSuffix suffix ∨ IsLongSuffix suffix) :
    (mantissa ++ (es.flatten ++ suffix)).countP isExponentMark = es.length := by
  have hletters : suffix.countP isExponentMark = 0 :=
    List.countP_eq_zero.2 (forall_mem_suffix (by decide) hsuffix)
  have hexponents : es.flatten.countP isExponentMark = es.length := by
    induction es with
    | nil => rfl
    | cons e es ih =>
      obtain ⟨he, hothers⟩ := List.forall_mem_cons.1 hes
      rw [List.flatten_cons, List.countP_append, he.countP_isExponentMark, ih hothers,
        List.length_cons, Nat.add_comm]
  rw [List.countP_append, List.countP_append, hmantissa.countP_isExponentMark, hexponents, hletters,
    Nat.zero_add, Nat.add_zero]

/-- What an accepted literal needs to be well-formed: hexadecimal digits must have their separators
between two digits, and a decimal literal must not have a second exponent. -/
def IsStrict (cs : List Char) : Prop :=
  if isHexadecimal cs then Digits Text.isHexDigit ((cs.drop 2).takeWhile isHexPart)
  else cs.countP isExponentMark ≤ 1

/-- A hexadecimal literal is strict if its separators stand between digits. -/
theorem isStrict_hexadecimal {x : Char} {suffix : List Char} (hx : x = 'x' ∨ x = 'X')
    (hds : ∀ c ∈ ds, isHexPart c = true) (hsuffix : IsLongSuffix suffix) :
    IsStrict ('0' :: x :: (ds ++ suffix)) ↔ Digits Text.isHexDigit ds := by
  rw [IsStrict, isHexadecimal_cons, if_pos (by simpa using hx), List.drop_succ_cons,
    List.drop_succ_cons, List.drop_zero, takeWhile_isHexPart hds hsuffix]

/-- A decimal literal is strict if it has no more than one exponent. -/
theorem isStrict_decimal {point : Bool} {mantissa suffix : List Char} {es : List (List Char)}
    (hmantissa : Mantissa point mantissa) (hes : ∀ e ∈ es, Exponent e)
    (hsuffix : IsRealSuffix suffix ∨ IsLongSuffix suffix) :
    IsStrict (mantissa ++ (es.flatten ++ suffix)) ↔ es.length ≤ 1 := by
  rw [IsStrict, hmantissa.isHexadecimal_append hes hsuffix, if_neg (by decide),
    countP_isExponentMark hmantissa hes hsuffix]

/-- The well-formed literals are the strict ones among the accepted. -/
theorem wellFormed_iff : WellFormed cs ↔ Accepted cs ∧ IsStrict cs := by
  constructor
  · intro h
    refine ⟨h.mono (fun _ => Digits.isHexPart) fun _ _ => trivial, ?_⟩
    cases h with
    | hexadecimal hx hdigits hsuffix =>
      exact (isStrict_hexadecimal hx hdigits.isHexPart.2 hsuffix).2 hdigits
    | decimal hmantissa hes hcount hsuffix =>
      exact (isStrict_decimal hmantissa hes (hsuffix.imp_right And.left)).2 hcount
  · rintro ⟨h, hstrict⟩
    cases h with
    | hexadecimal hx hdigits hsuffix =>
      exact .hexadecimal hx ((isStrict_hexadecimal hx hdigits.2 hsuffix).1 hstrict) hsuffix
    | decimal hmantissa hes _ hsuffix =>
      have hcount := (isStrict_decimal hmantissa hes (hsuffix.imp_right And.left)).1 hstrict
      exact .decimal hmantissa hes hcount hsuffix

end NumberLiteral

namespace Token

open NumberLiteral (Accepted IsStrict WellFormed)

/-- The numbers that are read from some text are exactly the accepted literals. Such a literal is
well-formed unless its hexadecimal digits have a separator that is not between two digits, or it has
two exponents. -/
theorem number_spelling (spelling : String) :
    ((∃ (text : String) (span : Span), ⟨.number spelling, span⟩ ∈ (read text).1) ↔
      Accepted spelling.toList) ∧
    (WellFormed spelling.toList ↔ Accepted spelling.toList ∧ IsStrict spelling.toList) := by
  refine ⟨?_, NumberLiteral.wellFormed_iff⟩
  rw [← NumberLiteral.valid_number_iff]
  constructor
  · rintro ⟨text, span, hmem⟩
    exact valid_of_readFrom _ hmem
  · intro hvalid
    have hreads : Step.Reads (.number spelling) [] := Step.reads_number hvalid nofun
    obtain ⟨c, cs, heq, hblank, hstep⟩ := hreads
    rw [List.append_nil] at heq
    refine ⟨spelling, ?_⟩
    rw [read, show spelling.toList = c :: cs from heq, readFrom_lexeme _ (by simp [hblank]) hstep]
    exact ⟨_, List.mem_cons_self⟩

/-- A separator at the end of hexadecimal digits is read into the number, and so is a second
exponent. -/
theorem number_spelling_not_wellFormed :
    (∃ t ∈ (read "0x_").1, t.lexeme = .number "0x_") ∧ ¬ WellFormed "0x_".toList ∧
      (∃ t ∈ (read "1e5e5").1, t.lexeme = .number "1e5e5") ∧ ¬ WellFormed "1e5e5".toList := by
  refine ⟨by decide +kernel, fun h => ?_, by decide +kernel, fun h => ?_⟩
  · have hstrict : NumberLiteral.Digits Text.isHexDigit ['_'] :=
      (NumberLiteral.wellFormed_iff.1 h).2
    cases hstrict with
    | one hc => exact absurd hc (by decide)
    | next hc _ => exact absurd hc (by decide)
  · have hstrict : 2 ≤ 1 := (NumberLiteral.wellFormed_iff.1 h).2
    exact absurd hstrict (by decide)

end Token

end Stencil
