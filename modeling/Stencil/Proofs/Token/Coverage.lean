import Stencil.Proofs.Source.Slicing
import Stencil.Proofs.Token.Front
import Stencil.Proofs.Token.QuotedBody

/-!
# What the tokens of a text cover

An editor marks what a message points at, so the spans of tokens have to be right, and nothing of the
text may get lost between them.

**The law** (`Token.covers_read`, with the parts of `Token.Covers`): the tokens of a text stand in it
in their order, without reaching into each other, each over the characters it was read from
(`Lexeme.WrittenAs`), and between two of them and in front of the first stand blanks only. Behind the
last one stand blanks up to the end of the text, or up to the error that ended the reading. One error
is an exception: a separator in a wrong place is reported where it stands, which is inside of a
number, so the digits in front of it are neither blank nor in a token (`not_blank_before_separator`).

The proof follows one round of reading: what a lexeme takes (`Step.text_of_step`), where a fault lies
and where reading stops (`Step.fault_of_step`), and then the induction over the rounds, in which the
tokens of a rest cover that end of the source (`covers_readFrom`, `Covers.cons`).

**What it does not establish.** That the texts of lexemes are what they should be, as for numbers and
strings, is told in Proofs/Token/NumberForm and Proofs/Token/QuotedBody.
-/

namespace Stencil

open Text (byteSize isBlank)

variable {c : Char} {cs rest : List Char} {l : Lexeme}

/-- What the source holds where the lexeme was read: a literal in its quotes, and any other lexeme
as its text. -/
def Lexeme.WrittenAs : Lexeme → List Char → Prop
  | .string _, piece => ∃ body, piece = '"' :: (body ++ ['"'])
  | .character _, piece => ∃ body, piece = '\'' :: (body ++ ['\''])
  | l, piece => piece = l.text.toList

/-! ## One lexeme -/

namespace Step

/-- A word is written as its characters. -/
theorem word_text (h : word c cs = .lexeme l rest) :
    ∃ piece, c :: cs = piece ++ rest ∧ l.WrittenAs piece := by
  refine ⟨l.spelling, word_eq_spelling h, ?_⟩
  unfold word at h
  extract_lets name tail at h
  split at h <;> obtain ⟨rfl, -⟩ := Step.lexeme.inj h <;> rfl

/-- A number is written as the characters it is spelled with. -/
theorem number_text (h : number cs = .lexeme l rest) :
    ∃ piece, cs = piece ++ rest ∧ l.WrittenAs piece := by
  unfold number at h
  split at h
  · next after hscan =>
    obtain ⟨rfl, rfl⟩ := Step.lexeme.inj h
    obtain ⟨ds, rfl, -⟩ := NumberLiteral.scan_relocate hscan
    refine ⟨ds, rfl, ?_⟩
    simp [Lexeme.WrittenAs, Lexeme.text]
  · cases h
  · cases h

/-- A string is written with its quotes around its body. -/
theorem string_text (h : string cs = .lexeme l rest) :
    ∃ piece, '"' :: cs = piece ++ rest ∧ l.WrittenAs piece := by
  obtain ⟨value, rfl, hscan⟩ := string_eq_lexeme.1 h
  obtain ⟨body, rfl, -⟩ := Quoted.denotes_of_scan hscan
  exact ⟨'"' :: (body ++ ['"']), by simp, body, rfl⟩

/-- A character literal is written with its quotes around its body. -/
theorem character_text (h : character cs = .lexeme l rest) :
    ∃ piece, '\'' :: cs = piece ++ rest ∧ l.WrittenAs piece := by
  obtain ⟨v, rfl, hscan⟩ := character_eq_lexeme.1 h
  obtain ⟨body, rfl, -⟩ := Quoted.denotes_of_scan hscan
  exact ⟨'\'' :: (body ++ ['\'']), by simp, body, rfl⟩

/-- A sign is written with the equals sign behind it or without. -/
theorem assignable_text {plain assigned : Sign} (front : List Char)
    (hplain : plain.text.toList = front) (hassigned : assigned.text.toList = front ++ ['='])
    (h : assignable plain assigned cs = .lexeme l rest) :
    ∃ piece, front ++ cs = piece ++ rest ∧ l.WrittenAs piece := by
  unfold assignable at h
  split at h
  · obtain ⟨rfl, rfl⟩ := Step.lexeme.inj h
    exact ⟨front ++ ['='], by simp, hassigned.symm⟩
  · obtain ⟨rfl, rfl⟩ := Step.lexeme.inj h
    exact ⟨front, rfl, hplain.symm⟩

/-- An operator is written as its characters. -/
theorem operator_text (h : operator c cs = .lexeme l rest) :
    ∃ piece, c :: cs = piece ++ rest ∧ l.WrittenAs piece := by
  unfold operator at h
  split at h <;> try split at h
  all_goals first
    | exact assignable_text [_] rfl rfl h
    | exact assignable_text [_, _] rfl rfl h
    | (obtain ⟨rfl, rfl⟩ := Step.lexeme.inj h; exact ⟨[_, _], rfl, rfl⟩)
    | (obtain ⟨rfl, rfl⟩ := Step.lexeme.inj h; exact ⟨[_], rfl, rfl⟩)
    | cases h

/-- A lexeme is read from what it is written as. -/
theorem text_of_step (h : step c cs = .lexeme l rest) :
    ∃ piece, c :: cs = piece ++ rest ∧ l.WrittenAs piece := by
  unfold step at h
  split at h
  · exact word_text h
  split at h
  · exact number_text h
  split at h
  · obtain ⟨rfl, rfl⟩ := Step.lexeme.inj h
    exact ⟨[c], rfl, by simp [Lexeme.WrittenAs, Lexeme.text]⟩
  split at h
  · next hquote =>
    subst hquote
    exact string_text h
  split at h
  · next hquote =>
    subst hquote
    exact character_text h
  · exact operator_text h

end Step

/-! ## One fault -/

namespace NumberLiteral

variable {cause : LexFault}

/-- Faulty digits are left behind the place where reading stopped. -/
theorem suffix_of_scanDecimal_error {integer afterDigit : Bool}
    (h : scanDecimal integer afterDigit cs = .error (cause, rest)) : rest <:+ cs := by
  fun_induction scanDecimal integer afterDigit cs with
  | case1 | case11 => cases h
  | case2 _ _ _ _ _ ih | case3 _ _ _ _ _ ih | case5 _ _ _ _ _ _ _ ih =>
    exact (ih h).trans (List.suffix_cons _ _)
  | case7 _ _ _ _ _ _ _ _ _ _ _ ih | case9 _ _ _ _ _ _ _ _ _ _ _ ih =>
    exact (ih h).trans ⟨[_, _], rfl⟩
  | case4 | case6 =>
    obtain ⟨-, rfl⟩ := Prod.mk.inj (Except.error.inj h)
    first | exact List.suffix_refl _ | exact List.nil_suffix
  | case8 =>
    obtain ⟨-, rfl⟩ := Prod.mk.inj (Except.error.inj h)
    exact ⟨[_, _], rfl⟩
  | case10 =>
    obtain ⟨-, rfl⟩ := Prod.mk.inj (Except.error.inj h)
    exact List.suffix_cons _ _

/-- The first character of a decimal literal is read, whatever follows. -/
theorem scanDecimal_front (cs : List Char) (hc : c.isDigit ∨ c = '.') :
    ∃ integer afterDigit, scanDecimal true false (c :: cs) = scanDecimal integer afterDigit cs := by
  rcases hc with hc | rfl
  · exact ⟨true, true, by rw [scanDecimal.eq_def]; simp only [hc, if_true]⟩
  · exact ⟨false, false, by rw [scanDecimal.eq_def]; rfl⟩

/-- A faulty literal that starts with a digit or a point is read beyond its first character. -/
theorem suffix_of_scan_error (hc : c.isDigit ∨ c = '.') (h : scan (c :: cs) = .error (cause, rest)) :
    rest <:+ cs := by
  -- Hexadecimal digits have no faults but the missing of any; decimal ones may be faulty themselves,
  -- or by the letter behind them.
  unfold scan at h
  split at h
  · next hx =>
    cases cs with
    | nil => simp [isHexadecimal] at hx
    | cons x tail =>
      rw [scanHexadecimal] at h
      split at h
      · obtain ⟨-, rfl⟩ := Prod.mk.inj (Except.error.inj h)
        exact (List.dropWhile_suffix _).trans (List.suffix_cons _ _)
      split at h
      · split at h <;> cases h
      · cases h
  · obtain ⟨integer, afterDigit, hfront⟩ := scanDecimal_front cs hc
    rw [hfront] at h
    cases hd : scanDecimal integer afterDigit cs with
    | error e =>
      obtain rfl : e = (cause, rest) := by simpa [hd, bind, Except.bind] using h
      exact suffix_of_scanDecimal_error hd
    | ok r =>
      obtain ⟨o, unread⟩ := r
      simp only [hd, bind, Except.bind] at h
      split at h
      · next d tail hdrop =>
        split at h
        · obtain ⟨-, rfl⟩ := Prod.mk.inj (Except.error.inj h)
          have htail : tail <:+ dropSuffix o unread := hdrop ▸ List.suffix_cons d tail
          exact (htail.trans (dropSuffix_suffix o unread)).trans (suffix_of_scanDecimal hd)
        · cases h
      · cases h

end NumberLiteral

/-- Where a faulty quoted literal stops being read. -/
theorem Quoted.suffix_of_scan_error {quote : Char} {cause : LexFault}
    (h : scan quote cs = .error (cause, rest)) : rest <:+ cs := by
  have hpush {v : Char} {r : Except (LexFault × List Char) (List Char × List Char)}
      (h : r.map (push v) = .error (cause, rest)) : r = .error (cause, rest) := by
    cases r with
    | error e => exact h
    | ok r => cases h
  fun_induction scan quote cs with
  | case3 => cases h
  | case4 c cs _ _ _ ih => exact (ih (hpush h)).trans (List.suffix_cons _ _)
  | case6 c _ _ _ d₁ d₂ d₃ d₄ tail _ _ ih =>
    exact (ih (hpush h)).trans ⟨[c, 'u', d₁, d₂, d₃, d₄], rfl⟩
  | case9 c _ _ _ e es _ _ _ ih => exact (ih (hpush h)).trans ⟨[c, e], rfl⟩
  | _ =>
    obtain ⟨-, rfl⟩ := Prod.mk.inj (Except.error.inj h)
    first | exact List.suffix_refl _ | exact List.suffix_cons _ _

namespace Step

variable {cause : LexFault} {start : List Char}

/-- A fault lies at the front of the text, except for a separator: that stands inside of a number. -/
def FaultIn (cs : List Char) (cause : LexFault) (start rest : List Char) : Prop :=
  rest <:+ start ∧ start <:+ cs ∧ (cause ≠ .numericSeparator → start = cs)

/-- A fault at the front of a text lies in it. -/
theorem faultIn_front (h : rest <:+ cs) : FaultIn cs cause cs rest :=
  ⟨h, List.suffix_refl cs, fun _ => rfl⟩

/-- Where a faulty operator lies. -/
theorem operator_fault (h : operator c cs = .fault cause start rest) :
    FaultIn (c :: cs) cause start rest := by
  have hassignable {plain assigned : Sign} {cs : List Char} :
      assignable plain assigned cs ≠ .fault cause start rest := by
    unfold assignable
    split <;> exact nofun
  unfold operator at h
  split at h <;> try split at h
  all_goals first
    | exact absurd h hassignable
    | cases h
  · exact faultIn_front ⟨['-', '>'], rfl⟩
  · exact faultIn_front (List.suffix_cons _ _)

/-- Where a faulty number lies: at its front, but for a separator. -/
theorem number_fault (hfront : c.isDigit ∨ c = '.')
    (h : number (c :: cs) = .fault cause start rest) : FaultIn (c :: cs) cause start rest := by
  unfold number at h
  split at h
  · cases h
  · next after hscan =>
    obtain ⟨rfl, rfl, rfl⟩ := Step.fault.inj h
    have hsuffix := NumberLiteral.suffix_of_scan_error hfront hscan
    exact ⟨List.suffix_refl _, hsuffix.trans (List.suffix_cons _ _), fun hne => absurd rfl hne⟩
  · next hscan =>
    obtain ⟨rfl, rfl, rfl⟩ := Step.fault.inj h
    have hsuffix := NumberLiteral.suffix_of_scan_error hfront hscan
    exact faultIn_front (hsuffix.trans (List.suffix_cons _ _))

/-- Where a faulty string lies. -/
theorem string_fault (h : string cs = .fault cause start rest) :
    FaultIn ('"' :: cs) cause start rest := by
  unfold string at h
  split at h
  · cases h
  · next hscan =>
    obtain ⟨rfl, rfl, rfl⟩ := Step.fault.inj h
    exact faultIn_front ((Quoted.suffix_of_scan_error hscan).trans (List.suffix_cons _ _))

/-- Where a faulty character literal lies. -/
theorem character_fault (h : character cs = .fault cause start rest) :
    FaultIn ('\'' :: cs) cause start rest := by
  unfold character at h
  split at h
  · cases h
  · next hscan =>
    obtain ⟨rfl, rfl, rfl⟩ := Step.fault.inj h
    exact faultIn_front ((Quoted.suffix_of_scan hscan).trans (List.suffix_cons _ _))
  · next hscan =>
    obtain ⟨rfl, rfl, rfl⟩ := Step.fault.inj h
    exact faultIn_front ((Quoted.suffix_of_scan_error hscan).trans (List.suffix_cons _ _))

/-- Where a fault lies, and where reading stops. -/
theorem fault_of_step (h : step c cs = .fault cause start rest) :
    FaultIn (c :: cs) cause start rest := by
  unfold step at h
  split at h
  · unfold word at h
    extract_lets at h
    split at h <;> cases h
  split at h
  · next hc =>
    have hfront : c.isDigit ∨ c = '.' := by
      simp only [Bool.or_eq_true, Bool.and_eq_true, decide_eq_true_eq] at hc
      exact hc.imp_right And.left
    exact number_fault hfront h
  split at h
  · cases h
  split at h
  · next hquote => exact hquote ▸ string_fault h
  split at h
  · next hquote => exact hquote ▸ character_fault h
  · exact operator_fault h

end Step

/-! ## Whole texts -/

namespace Token

/-- The spans of the tokens, and behind them that of the error. -/
def spans (tokens : List Token) (error : Option LexError) : List Span :=
  tokens.map (·.span) ++ error.toList.map (·.span)

/-- The source has blanks only from offset `start` to offset `stop`. -/
def BlankBetween (source : List Char) (start stop : Nat) : Prop :=
  ∀ c ∈ Text.slice start stop source, isBlank c = true

/-- From the offset `n` on, the source is covered by the tokens and blanks, up to its end or up to the
error. -/
structure Covers (source : List Char) (n : Nat) (tokens : List Token)
    (error : Option LexError) : Prop where
  /-- Nothing lies before the offset. -/
  start_le : ∀ s ∈ spans tokens error, n ≤ s.start
  /-- The spans are cut between characters of the source. -/
  fits : ∀ s ∈ spans tokens error, s.Fits source
  /-- Each span starts behind the start, and not before the end, of those in front of it. -/
  increasing : (spans tokens error).Pairwise fun a b => a.start < b.start ∧ a.stop ≤ b.start
  /-- No token is empty. -/
  proper : ∀ t ∈ tokens, t.span.start < t.span.stop
  blank_before : ∀ t, tokens.head? = some t → BlankBetween source n t.span.start
  blank_between : ∀ t u, [t, u] <:+: tokens → BlankBetween source t.span.stop u.span.start
  blank_behind : error = none → BlankBetween source (endOf n tokens) (byteSize source)
  /-- An error that is not about a separator lies behind blanks, too. -/
  blank_before_error : ∀ e, error = some e → e.fault ≠ .numericSeparator →
    BlankBetween source (endOf n tokens) e.span.start
  /-- Each token stands over what it is written as. -/
  written : ∀ t ∈ tokens, t.lexeme.WrittenAs (Text.slice t.span.start t.span.stop source)

open Markup (offsetOf spanBetween holds_spanBetween)

variable {source gap piece : List Char} {n : Nat} {t : Token} {tokens : List Token}
  {error : Option LexError}

/-- Two ends hold blanks between them. -/
theorem blankBetween_of_holds {start stop : Nat} (h : Span.Holds source ⟨start, stop⟩ gap)
    (hblank : ∀ c ∈ gap, isBlank c = true) : BlankBetween source start stop := by
  have hslice : Text.slice start stop source = gap := h.slice
  rwa [BlankBetween, hslice]

/-- The end of tokens is that of the last one. -/
theorem endOf_cons (n : Nat) (t : Token) (tokens : List Token) :
    endOf n (t :: tokens) = endOf t.span.stop tokens := by
  rw [endOf, endOf, List.getLast?_cons]
  cases tokens.getLast? <;> rfl

/-- Only blanks are left. -/
theorem covers_blank (hgap : Span.Holds source ⟨n, byteSize source⟩ gap)
    (hblank : ∀ c ∈ gap, isBlank c = true) : Covers source n [] none where
  start_le := nofun
  fits := nofun
  increasing := .nil
  proper := nofun
  blank_before := nofun
  blank_between := by simp
  blank_behind _ := blankBetween_of_holds hgap hblank
  blank_before_error := nofun
  written := nofun

/-- Blanks and the error are left. -/
theorem covers_error {e : LexError} (hle : n ≤ e.span.start) (hfits : e.span.Fits source)
    (hblank : e.fault ≠ .numericSeparator → BlankBetween source n e.span.start) :
    Covers source n [] (some e) where
  start_le := by simpa [spans] using hle
  fits := by simpa [spans] using hfits
  increasing := List.pairwise_singleton _ _
  proper := nofun
  blank_before := nofun
  blank_between := by simp
  blank_behind := nofun
  blank_before_error := by
    rintro _ ⟨⟩
    exact hblank
  written := nofun

/-- A token behind blanks covers what the rest leaves. -/
theorem Covers.cons (h : Covers source t.span.stop tokens error)
    (hgap : Span.Holds source ⟨n, t.span.start⟩ gap) (hblank : ∀ c ∈ gap, isBlank c = true)
    (hpiece : t.span.Holds source piece) (hne : piece ≠ [])
    (hwritten : t.lexeme.WrittenAs piece) : Covers source n (t :: tokens) error := by
  have hle : n ≤ t.span.start := hgap.fits.ordered
  have hproper := hpiece.start_lt hne
  -- The token is in front of all others, and so is the blank before it.
  constructor
  case start_le =>
    refine List.forall_mem_cons.2 ⟨hle, fun s hs => ?_⟩
    have := h.start_le s hs
    omega
  case fits => exact List.forall_mem_cons.2 ⟨hpiece.fits, h.fits⟩
  case increasing =>
    refine List.pairwise_cons.2 ⟨fun s hs => ?_, h.increasing⟩
    have hbehind := h.start_le s hs
    exact ⟨Nat.lt_of_lt_of_le hproper hbehind, hbehind⟩
  case proper => exact List.forall_mem_cons.2 ⟨hproper, h.proper⟩
  case blank_before =>
    rintro _ ⟨⟩
    exact blankBetween_of_holds hgap hblank
  case blank_between =>
    intro a b hab
    rcases List.infix_cons_iff.1 hab with hfront | hlater
    · obtain ⟨rfl, tail, rfl⟩ := List.cons_prefix_cons.1 hfront
      exact h.blank_before b rfl
    · exact h.blank_between a b hlater
  case blank_behind => exact fun hnone => endOf_cons n t tokens ▸ h.blank_behind hnone
  case blank_before_error =>
    exact fun e he hne => endOf_cons n t tokens ▸ h.blank_before_error e he hne
  case written =>
    refine List.forall_mem_cons.2 ⟨?_, h.written⟩
    rwa [hpiece.slice]

/-- What is read from the end of a source covers that end. -/
theorem covers_readFrom (hs : cs <:+ source) :
    Covers source (byteSize source - byteSize cs) (readFrom (byteSize source) cs).1
      (readFrom (byteSize source) cs).2 := by
  have hsplit {us : List Char} : us = us.takeWhile isBlank ++ us.dropWhile isBlank :=
    List.takeWhile_append_dropWhile.symm
  have hblank {us : List Char} : ∀ c ∈ us.takeWhile isBlank, isBlank c = true :=
    List.all_eq_true.1 List.all_takeWhile
  generalize hsize : byteSize source = size
  -- One case for each way a round ends: with the text, with a lexeme, or with a fault.
  fun_induction readFrom size cs with
  | case1 cs hdrop =>
    have hgap := holds_spanBetween hs hsplit
    rw [hdrop, hsize] at hgap
    subst hsize
    exact covers_blank hgap hblank
  | case2 cs c tail hdrop lexeme rest hstep span hshorter tokens error heq ih =>
    subst hsize
    have hgap := holds_spanBetween hs hsplit
    have htail : c :: tail <:+ source := (hdrop ▸ List.dropWhile_suffix isBlank).trans hs
    obtain ⟨piece, hpiece, hwritten⟩ := Step.text_of_step hstep
    have hne : piece ≠ [] := by
      rintro rfl
      have hlength := length_of_step hstep
      rw [hpiece] at hlength
      exact Nat.lt_irrefl _ hlength
    have hrest := ih (((suffix_of_step hstep).trans (List.suffix_cons c tail)).trans htail)
    rw [heq] at hrest
    rw [hdrop] at hgap
    exact hrest.cons hgap hblank (holds_spanBetween htail hpiece) hne hwritten
  | case3 cs c tail hdrop cause start rest hstep =>
    subst hsize
    have hgap := holds_spanBetween hs hsplit
    have htail : c :: tail <:+ source := (hdrop ▸ List.dropWhile_suffix isBlank).trans hs
    obtain ⟨⟨piece, hpiece⟩, hstart, hfront⟩ := Step.fault_of_step hstep
    have hheld := holds_spanBetween (hstart.trans htail) hpiece.symm
    rw [hdrop] at hgap
    refine covers_error ?_ hheld.fits fun hne => ?_
    · exact Markup.offsetOf_mono (hstart.trans (hdrop ▸ List.dropWhile_suffix isBlank))
    · obtain rfl := hfront hne
      exact blankBetween_of_holds hgap hblank

/-- The tokens of a text cover it: they stand in the text in their order, without reaching into each
other, each over what it is written as, and all else is blank. Nothing stands behind an error. What is
in front of the first token is blank unless that token is the error about a separator, which lies
inside of a number. -/
theorem covers_read (input : String) :
    Covers input.toList 0 (read input).1 (read input).2 := by
  have hread := covers_readFrom (List.suffix_refl input.toList)
  rwa [Nat.sub_self, Text.byteSize_toList] at hread

/-- The error about a separator is the first token of the text, and a digit stands in front of it. -/
theorem not_blank_before_separator :
    ¬ ∀ s, (spans (read "1_").1 (read "1_").2).head? = some s →
      BlankBetween "1_".toList 0 s.start := by
  intro hall
  have hread : read "1_" = ([], some ⟨.numericSeparator, ⟨1, 1⟩⟩) := by decide +kernel
  rw [hread] at hall
  exact absurd (hall ⟨1, 1⟩ rfl '1' (by decide +kernel)) (by decide)

end Token

end Stencil
