import Stencil.Proofs.Expr.RoundTrip
import Stencil.Proofs.Loop.Division
import Stencil.Proofs.Text.DecimalDigit
import Stencil.Proofs.Text.LowerCase
import Stencil.Proofs.Token.Coverage
import Stencil.Proofs.Token.NumberForm

/-!
# The type of an iterable

A loop goes through the integers up to a number if its iterable is one. The definition decides that by
the characters of the iterable, which may be digits of any script; an expression decides it by the
grammar of literals, which has ASCII digits, separators between them and a hexadecimal form.

**The law** (`LoopDefinition.iterableType_of_parse`): for every definition that is accepted, and whose
iterable can be read as an expression, the iterable has the type of integers exactly if the expression
is an integer literal that is neither hexadecimal nor has separators. Of the other integer literals,
such as `0x10`, nothing is known (`exists_integer_dynamic`).

From the characters to the tokens: digits that are all decimal digits and can be read are ASCII digits
(`Token.isDigit_of_readFrom`), since a decimal digit of another script is no token
(`Step.step_of_isDecimalDigit`). From the tokens to the characters: an integer literal is one number
token (`Derives.number_of_int`), which has only digits and separators (`isWhole_of_ofNumber`).

**What it does not establish.** Iterables that are no expressions are accepted by the definition and
not looked at here.
-/

namespace Stencil

open Text (isDecimalDigit)
open NumberLiteral (Accepted Digits isHexadecimal)

variable {c : Char} {cs rest : List Char} {size : Nat}

/-! ## Digits that are read -/

/-- Digits without separators are digits. -/
theorem NumberLiteral.digits_of_forall (hne : cs ≠ []) (hcs : ∀ c ∈ cs, c.isDigit = true) :
    Digits Char.isDigit cs := by
  induction cs with
  | nil => exact absurd rfl hne
  | cons c cs ih =>
    obtain ⟨hc, hcs⟩ := List.forall_mem_cons.1 hcs
    cases cs with
    | nil => exact .one hc
    | cons d ds => exact .next hc (ih (List.cons_ne_nil d ds) hcs)

/-- A decimal digit of another script is no token, and starts none. -/
theorem Step.step_of_isDecimalDigit (h : isDecimalDigit c = true) (hc : 0x80 ≤ c.toNat) :
    step c cs = .fault (.invalidCharacter c) (c :: cs) cs := by
  have hpart := Text.isIdentifierPart_of_isDecimalDigit h hc
  rw [Text.isIdentifierPart, Bool.or_eq_false_iff] at hpart
  have hdigit : c.isDigit = false := hpart.2
  have hpunctuation : isPunctuation c = false := by
    simp [isPunctuation, Text.ne_of_ascii hc]
  rw [step, hpart.1, if_neg (by decide), if_neg (by simp [hdigit, Text.ne_of_ascii hc]), hpunctuation,
    if_neg (by decide), if_neg (Text.ne_of_ascii hc (by decide)),
    if_neg (Text.ne_of_ascii hc (by decide))]
  unfold operator
  split
  all_goals first
    | rfl
    | exact absurd hc (by decide)

/-- Digits are read as a number, up to the first character that no identifier has in it. -/
theorem Token.readFrom_digits (size : Nat) (rest : List Char) (hne : cs ≠ [])
    (hcs : ∀ c ∈ cs, c.isDigit = true)
    (hrest : ∀ c, rest.head? = some c → Text.isIdentifierPart c = false ∧ c ≠ '.') :
    readFrom size (cs ++ rest) =
      (⟨.number (String.ofList cs), size - Text.byteSize (cs ++ rest), size - Text.byteSize rest⟩ ::
        (readFrom size rest).1, (readFrom size rest).2) := by
  have hvalid : (Lexeme.number (String.ofList cs)).Valid := by
    refine NumberLiteral.valid_number_iff.2 ?_
    rw [String.toList_ofList]
    have hform : Accepted (cs ++ ([].flatten ++ [])) :=
      .decimal (.whole (NumberLiteral.digits_of_forall hne hcs)) nofun trivial
        (.inr ⟨.inl rfl, fun hne => absurd rfl hne⟩)
    simpa using hform
  have hreads : Step.Reads (.number (String.ofList cs)) rest :=
    Step.reads_number hvalid fun d hd => ⟨(hrest d hd).1, fun hpoint => absurd hpoint (hrest d hd).2⟩
  have hread := Written.readFrom_spelling size hreads
  rwa [Lexeme.spelling, String.toList_ofList] at hread

/-- A number of which every character is a decimal digit has ASCII digits only, if it is read. -/
theorem Token.isDigit_of_readFrom {ts : List Token} (hcs : ∀ c ∈ cs, isDecimalDigit c = true)
    (h : readFrom size cs = (ts, none)) : ∀ c ∈ cs, c.isDigit = true := by
  obtain ⟨run, rest, rfl, hrun, hrest⟩ := Text.exists_run Char.isDigit cs
  cases rest with
  | nil => simpa using hrun
  | cons c rest =>
    exfalso
    have hc : isDecimalDigit c = true := hcs c (by simp)
    have hhigh : 0x80 ≤ c.toNat := by
      have hnot := hrest c rfl
      simpa [hnot] using Text.isDigit_or_of_isDecimalDigit hc
    have hfault : (readFrom size (c :: rest)).2 ≠ none := by
      rw [readFrom_fault size (by simp [Text.isBlank_of_isDecimalDigit hc])
        (Step.step_of_isDecimalDigit hc hhigh)]
      exact nofun
    cases run with
    | nil => exact hfault (congrArg Prod.snd h)
    | cons d run =>
      rw [readFrom_digits size (c :: rest) (List.cons_ne_nil d run) hrun] at h
      · exact hfault (congrArg Prod.snd h)
      · rintro _ ⟨⟩
        exact ⟨Text.isIdentifierPart_of_isDecimalDigit hc hhigh, Text.ne_of_ascii hhigh (by decide)⟩

/-! ## Integer literals -/

/-- The scanner and the kind of a literal agree on what is hexadecimal. -/
theorem NumberLiteral.isPrefixOf_map_toLower (h : isHexadecimal cs = false) :
    ['0', 'x'].isPrefixOf (cs.map Char.toLower) = false := by
  rw [Bool.eq_false_iff]
  intro hprefix
  rcases cs with _ | ⟨a, _ | ⟨b, cs⟩⟩
  · cases hprefix
  · simp at hprefix
  · obtain ⟨ha, hb⟩ : '0' = a.toLower ∧ 'x' = b.toLower := by simpa using hprefix
    obtain rfl : a = '0' := Text.eq_of_toLower ha.symm (by decide)
    rcases Text.eq_or_of_toLower hb.symm with rfl | hval
    · cases h
    · obtain rfl : b = 'X' := by
        refine Char.ext ?_
        rw [show ('X' : Char).val = ('x' : Char).val - 32 from rfl, ← hval, UInt32.add_sub_cancel]
      cases h

namespace LiteralKind

variable {s : String}

/-- A decimal literal of an integer has only digits and separators. -/
theorem isWhole_of_ofNumber (hs : Accepted s.toList) (hhex : isHexadecimal s.toList = false)
    (h : ofNumber s = .int) : NumberLiteral.isWhole s.toList = true := by
  rw [ofNumber] at h
  simp only [NumberLiteral.isPrefixOf_map_toLower hhex, Bool.false_eq_true, if_false] at h
  generalize s.toList = cs at hs hhex h ⊢
  split at h
  · cases h
  split at h
  · cases h
  split at h
  · cases h
  next hlong hfloat hdouble =>
  simp only [Bool.or_eq_true, decide_eq_true_eq, List.contains_iff_mem, not_or] at hdouble
  -- An accepted literal without suffix, exponent and point is a run of digits.
  cases hs with
  | hexadecimal hx _ _ => rcases hx with rfl | rfl <;> cases hhex
  | @decimal point mantissa suffix es hmantissa hes _ hsuffix =>
    obtain rfl : suffix = [] := by
      rcases hsuffix with (rfl | rfl | rfl | rfl) | ⟨rfl | rfl | rfl, -⟩
      · simp at hfloat
      · simp at hfloat
      · simp at hdouble
      · simp at hdouble
      · rfl
      · simp at hlong
      · simp at hlong
    obtain rfl : es = [] := by
      cases es with
      | nil => rfl
      | cons e es =>
        obtain ⟨hc, -, -⟩ := hes e List.mem_cons_self
        rcases hc with rfl | rfl <;> simp at hdouble
    cases hmantissa with
    | whole h => simpa [NumberLiteral.isWhole] using h.of_mem
    | pointBehind h | pointBefore h | pointBetween h h' => simp at hdouble

end LiteralKind

/-- An integer literal is read from a number and nothing else. -/
theorem Expr.Derives.number_of_int {ts : List Token} {span : Span} {v : String}
    (h : Expr.Derives ts (.literal span .int v)) :
    ts = [⟨.number v, span⟩] ∧ LiteralKind.ofNumber v = .int := by
  generalize he : Expr.literal span .int v = e at h
  cases h with
  | number s span' =>
    obtain ⟨rfl, hkind, rfl⟩ := Expr.literal.inj he
    exact ⟨rfl, hkind.symm⟩
  | _ => cases he

namespace LoopDefinition

/-- A trimmed text that is an expression is an integer to a loop exactly if the expression is an integer
literal, neither hexadecimal nor with separators. -/
theorem isInteger_iff_of_parse {text : String} {e : Expr} (h : Expr.parse text = .ok e)
    (htrim : Text.trim text.toList = text.toList) :
    isInteger text.toList = true ↔ ∃ span v, e = .literal span .int v ∧
      isHexadecimal v.toList = false ∧ '_' ∉ v.toList := by
  obtain ⟨ts, hread, hts⟩ := Expr.parse_eq_ok.1 h
  constructor
  · intro hint
    obtain ⟨hne, hall⟩ : text.toList ≠ [] ∧ ∀ c ∈ text.toList, isDecimalDigit c = true := by
      simpa [isInteger] using hint
    have hdigits := Token.isDigit_of_readFrom hall hread
    have hwhole : NumberLiteral.isWhole text.toList = true :=
      List.all_eq_true.2 fun c hc => by simp [hdigits c hc]
    have htokens := Token.readFrom_digits text.utf8ByteSize [] hne hdigits nofun
    rw [List.append_nil, Token.readFrom_nil, String.ofList_toList] at htokens
    have hliteral := h.symm.trans (Expr.parse_eq_ok.2 ⟨_, htokens, .number text _⟩)
    rw [LiteralKind.ofNumber_of_isWhole hwhole] at hliteral
    refine ⟨_, _, Except.ok.inj hliteral, NumberLiteral.isHexadecimal_of_isWhole hwhole, ?_⟩
    intro hseparator
    exact absurd (hdigits _ hseparator) (by decide)
  · rintro ⟨span, v, rfl, hhex, hseparator⟩
    obtain ⟨rfl, hkind⟩ := hts.number_of_int
    have hfirst : ∀ c, text.toList.head? = some c → Text.isBlank c = false := fun c hc =>
      Text.isBlank_of_not_isWhiteSpace
        (@Text.not_isWhiteSpace_head?_trim c text.toList (by rwa [htrim]))
    have hlast : ∀ c, text.toList.getLast? = some c → Text.isBlank c = false := fun c hc =>
      Text.isBlank_of_not_isWhiteSpace
        (@Text.not_isWhiteSpace_getLast?_trim c text.toList (by rwa [htrim]))
    obtain ⟨c, tail, hcs, hstep⟩ := Token.step_of_readFrom hfirst hlast hread
    -- the text is the literal
    obtain ⟨piece, hpiece, hwritten⟩ := Step.text_of_step hstep
    obtain rfl : piece = v.toList := hwritten
    rw [List.append_nil, ← hcs] at hpiece
    have haccepted := NumberLiteral.valid_number_iff.1 (Step.valid_of_step hstep)
    have hwhole := LiteralKind.isWhole_of_ofNumber haccepted hhex hkind
    rw [isInteger, hpiece, Bool.and_eq_true]
    refine ⟨by rw [← hpiece, hcs]; rfl, List.all_eq_true.2 fun d hd => ?_⟩
    have hd' : d.isDigit = true ∨ d = '_' := by simpa using List.all_eq_true.1 hwhole d hd
    refine Text.isDecimalDigit_of_isDigit (hd'.resolve_right ?_)
    rintro rfl
    exact hseparator hd

/-- The iterable of a loop has the type of integers exactly if it is an integer literal, neither
hexadecimal nor with separators; nothing is known about the type of any other iterable. -/
theorem iterableType_of_parse {ctx : Context} {definition : String} {loop : LoopDefinition} {e : Expr}
    (h : parse ctx definition = .ok loop) (he : Expr.parse loop.iterable = .ok e) :
    (loop.iterableType = .int ∨ loop.iterableType = .dynamic) ∧
      (loop.iterableType = .int ↔ ∃ span v, e = .literal span .int v ∧
        isHexadecimal v.toList = false ∧ '_' ∉ v.toList) := by
  obtain ⟨declared, iterable, hread, rfl⟩ := parse_eq_ok.1 h
  obtain ⟨declaration, hdivide, -, -⟩ := read_eq_ok.1 hread
  have htrim : Text.trim (String.ofList iterable).toList = (String.ofList iterable).toList := by
    rw [String.toList_ofList, trim_of_divide hdivide]
  rw [← isInteger_iff_of_parse he htrim, String.toList_ofList]
  cases isInteger iterable <;> simp [TypeRef.int, TypeRef.simple]

/-- A range up to ten. -/
theorem iterableType_of_ten :
    ∃ loop, parse {} "int i in 10" = .ok loop ∧
      Expr.parse loop.iterable = .ok (.literal ⟨0, 2⟩ .int "10") ∧
      (loop.iterableType = .int ∨ loop.iterableType = .dynamic) ∧
      (loop.iterableType = .int ↔ ∃ span v, Expr.literal ⟨0, 2⟩ .int "10" = .literal span .int v ∧
        isHexadecimal v.toList = false ∧ '_' ∉ v.toList) := by
  have hparse : parse {} "int i in 10" = .ok
      { declared := [⟨"i", .int, .loopLocal⟩], iterable := "10", iterableType := .int } := by
    decide +kernel
  have hexpr : Expr.parse "10" = .ok (.literal ⟨0, 2⟩ .int "10") := by
    have hread : Token.read "10" = ([⟨.number "10", ⟨0, 2⟩⟩], none) := by decide +kernel
    rw [Expr.parse_of_read hread]
    with_unfolding_all rfl
  exact ⟨_, hparse, hexpr, iterableType_of_parse hparse hexpr⟩

/-- Nothing is known about the type of a hexadecimal integer. -/
theorem exists_integer_dynamic :
    ¬ ∀ ctx definition loop e, parse ctx definition = .ok loop → Expr.parse loop.iterable = .ok e →
      (loop.iterableType = .int ↔ ∃ span v, e = .literal span .int v) := by
  intro hall
  have hparse : parse {} "int i in 0x10" = .ok
      { declared := [⟨"i", .int, .loopLocal⟩], iterable := "0x10", iterableType := .dynamic } := by
    decide +kernel
  have hexpr : Expr.parse "0x10" = .ok (.literal ⟨0, 4⟩ .int "0x10") := by
    have hread : Token.read "0x10" = ([⟨.number "0x10", ⟨0, 4⟩⟩], none) := by decide +kernel
    rw [Expr.parse_of_read hread]
    with_unfolding_all rfl
  have hint : TypeRef.dynamic = .int := (hall _ _ _ _ hparse hexpr).2 ⟨_, _, rfl⟩
  cases hint

end LoopDefinition

end Stencil
