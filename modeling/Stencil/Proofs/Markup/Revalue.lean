import Stencil.Proofs.Markup.Outline
import Stencil.Proofs.Markup.Pieces

/-!
# Start tags with new values

**The law** (`attributes_rewritten`): a start tag whose attribute values get new texts is read as
before, with the new values in it, in front of a rest that has the same front.

What is read behind an attribute depends on its first character, and on the first one that is no
blank; both stay when the attributes behind it get new values (`SameAttributes`). So the tag is
rebuilt from its end, attribute by attribute: `attribute?_rewritten` is one, `attributes_push` and
`attributes_skip` are the two ways a tag goes on.

A value has three forms (`value_cases`): between quotes, behind a quote that nothing closes, and bare
up to a blank or the end of the tag. For each the new value is cut off as the old one is
(`revalues_quoted`, `revalues_unclosed`, `revalues_bare`), which is what the new value has to be for:
it must not hold its own quote, and a bare one must have only characters of bare values
(`NewTexts.Fit`). `Rewritten` keeps the account of what the edits in the unread text come to.

**What it does not establish.** A new value between quotes that holds its quote, and a bare one with a
blank in it, are excluded by `NewTexts.Fit`; what happens with them is told where values are written.
-/

namespace Stencil.Markup

open Text (byteSize)

/-! ## Rewriting the unread text -/

/-- The unread text `cs` of a source of `size` bytes becomes `cs'` by the edits. -/
structure Rewritten (size : Nat) (es : List Edit) (cs cs' : List Char) : Prop where
  fits : byteSize cs ≤ size
  rewrites : Edit.Rewrites (offsetOf size cs) cs es cs'

/-- A text in front moves the offset by its size. -/
theorem offsetOf_add {size : Nat} {before rest : List Char} (h : byteSize (before ++ rest) ≤ size) :
    offsetOf size (before ++ rest) + byteSize before = offsetOf size rest := by
  rw [Text.byteSize_append] at h
  rw [offsetOf, offsetOf, Text.byteSize_append]
  omega

namespace Rewritten

variable {size : Nat} {es fs : List Edit} {text text' rest rest' : List Char}

/-- A rewritten text in front of a rewritten rest. -/
theorem append (h : Rewritten size es rest rest') (hfits : byteSize (text ++ rest) ≤ size)
    (htext : Edit.Rewrites (offsetOf size (text ++ rest)) text fs text') :
    Rewritten size (fs ++ es) (text ++ rest) (text' ++ rest') := by
  refine ⟨hfits, htext.append ?_⟩
  rw [offsetOf_add hfits]
  exact h.rewrites

/-- A text in front that stays. -/
theorem copy (h : Rewritten size es rest rest') (hfits : byteSize (text ++ rest) ≤ size) :
    Rewritten size es (text ++ rest) (text ++ rest') :=
  h.append hfits (.keep _ _)

/-- A character in front that stays. -/
theorem cons {c : Char} (h : Rewritten size es rest rest') (hfits : byteSize (c :: rest) ≤ size) :
    Rewritten size es (c :: rest) (c :: rest') := by
  have hcopy : Rewritten size es ([c] ++ rest) ([c] ++ rest') := h.copy hfits
  exact hcopy

/-- The text is replaced. -/
theorem replace (h : Rewritten size es rest rest') (hfits : byteSize (text ++ rest) ≤ size)
    (new : List Char) :
    Rewritten size (⟨spanBetween size (text ++ rest) rest, new⟩ :: es) (text ++ rest) (new ++ rest') := by
  have hspan : spanBetween size (text ++ rest) rest =
      ⟨offsetOf size (text ++ rest) + byteSize [],
        offsetOf size (text ++ rest) + byteSize [] + byteSize text⟩ := by
    rw [spanBetween, Text.byteSize_nil, Nat.add_zero, offsetOf_add hfits]
  have hedit : Edit.Rewrites (offsetOf size (text ++ rest)) ([] ++ text ++ [])
      [⟨spanBetween size (text ++ rest) rest, new⟩] ([] ++ new ++ []) :=
    .replace hspan (.keep _ _)
  rw [List.append_nil, List.append_nil] at hedit
  exact h.append hfits hedit

end Rewritten

/-! ## Values -/

/-- A character of an unquoted value. -/
def isBare (c : Char) : Bool := !Text.isBlank c && c != '>'

section

variable {q : Char} {raw behind cs : List Char}

/-- A value is cut at its closing quote. -/
theorem cutAtChar_quote (h : q ∉ raw) : Text.cutAtChar q (raw ++ q :: behind) = some (raw, behind) := by
  have hraw : ¬ [q] <:+: raw := fun hin => h (hin.subset (List.mem_singleton_self q))
  have hcut : Text.cutAt [q] (raw ++ [q] ++ behind) = some (raw, behind) :=
    Text.cutAt_append List.not_mem_nil hraw
  simpa [Text.cutAtChar] using hcut

/-- A value between quotes. -/
theorem cutValue_quoted (hq : Text.isQuote q = true) (h : q ∉ raw) :
    cutValue (q :: (raw ++ q :: behind)) = (raw, some q, q :: behind, some behind) := by
  simp [cutValue, hq, cutAtChar_quote h]

/-- A value that nothing closes: nothing stands behind it. -/
theorem cutValue_unclosed (hq : Text.isQuote q = true) (h : q ∉ raw) :
    cutValue (q :: (raw ++ [])) = (raw, some q, [], none) := by
  rw [List.append_nil]
  have hnone : Text.cutAtChar q raw = none :=
    (Text.cutAt_eq_none (List.cons_ne_nil q [])).2 fun hin =>
      h (hin.subset (List.mem_singleton_self q))
  simp [cutValue, hq, hnone]

/-- A bare value goes up to the first character that is none of its own. -/
theorem cutValue_bare (hraw : ∀ c ∈ raw, isBare c = true)
    (hbehind : ∀ c, behind.head? = some c → isBare c = false)
    (hquote : ∀ c, (raw ++ behind).head? = some c → Text.isQuote c = false) :
    cutValue (raw ++ behind) = (raw, none, behind, some behind) := by
  cases heq : raw ++ behind with
  | nil =>
    obtain ⟨rfl, rfl⟩ := List.append_eq_nil_iff.1 heq
    rfl
  | cons c cs =>
    have htake := Text.takeWhile_run hraw hbehind
    have hdrop := Text.dropWhile_run hraw hbehind
    rw [heq] at htake hdrop hquote
    have hno := hquote c rfl
    rw [cutValue, if_neg (by simp [hno])]
    exact Prod.ext htake (Prod.ext rfl (Prod.ext hdrop (congrArg some hdrop)))

/-- The forms of a value. -/
theorem value_cases (cs : List Char) :
    (∃ q raw behind, cs = q :: (raw ++ q :: behind) ∧ Text.isQuote q = true ∧ q ∉ raw) ∨
    (∃ q raw, cs = q :: (raw ++ []) ∧ Text.isQuote q = true ∧ q ∉ raw) ∨
    ∃ raw behind, cs = raw ++ behind ∧ (∀ c ∈ raw, isBare c = true) ∧
      (∀ c, behind.head? = some c → isBare c = false) ∧
      ∀ c, (raw ++ behind).head? = some c → Text.isQuote c = false := by
  by_cases hquoted : ∃ q rest, cs = q :: rest ∧ Text.isQuote q = true
  · obtain ⟨q, rest, rfl, hq⟩ := hquoted
    cases hcut : Text.cutAtChar q rest with
    | none =>
      refine .inr (.inl ⟨q, rest, by rw [List.append_nil], hq, fun hin => ?_⟩)
      exact (Text.cutAt_eq_none (List.cons_ne_nil q [])).1 hcut ((List.singleton_infix_iff q rest).2 hin)
    | some found =>
      obtain ⟨raw, behind⟩ := found
      obtain ⟨rfl, hfirst⟩ := (Text.cutAt_eq_some (List.cons_ne_nil q [])).1 hcut
      refine .inl ⟨q, raw, behind, by simp, hq, fun hin => hfirst ?_⟩
      simpa using (List.singleton_infix_iff q raw).2 hin
  · obtain ⟨raw, behind, rfl, hraw, hbehind⟩ := Text.exists_run isBare cs
    refine .inr (.inr ⟨raw, behind, rfl, hraw, hbehind, fun c hc => ?_⟩)
    obtain ⟨rest, hrest⟩ := List.head?_eq_some_iff.1 hc
    exact Bool.eq_false_iff.2 fun hq => hquoted ⟨c, rest, hrest, hq⟩

end

/-! ## Attributes -/

/-- What is read behind an attribute cannot tell the second text from the first one. -/
structure SameAttributes (cs cs' : List Char) : Prop where
  head : cs'.head? = cs.head?
  next : (skipBlanks cs').head? = (skipBlanks cs).head?
  closing : ¬ ['\x7d', '\x7d'] <:+: cs → ¬ ['\x7d', '\x7d'] <:+: cs'

/-- Blanks are passed over up to the first character that is none. -/
theorem skipBlanks_append {gap cs : List Char} (hgap : ∀ c ∈ gap, Text.isBlank c = true)
    (hcs : ∀ c, cs.head? = some c → Text.isBlank c = false) : skipBlanks (gap ++ cs) = cs :=
  Text.dropWhile_run hgap hcs

/-- An attribute with its value, by how the value is cut off. -/
theorem valuedAttribute_eq {size : Nat} {name start gap cs raw rest : List Char}
    {quote : Option Char} {behind : Option (List Char)} (hgap : ∀ c ∈ gap, Text.isBlank c = true)
    (hcs : ∀ c, cs.head? = some c → Text.isBlank c = false)
    (hcut : cutValue cs = (raw, quote, rest, behind)) :
    (valuedAttribute size name start (gap ++ cs)).rest = behind.getD [] ∧
      (valuedAttribute size name start (gap ++ cs)).found =
        { name := String.ofList name
          value := String.ofList (decodeReferences raw)
          span := spanBetween size start (behind.getD [])
          valueSpan := some (spanBetween size (raw ++ rest) rest)
          quote } := by
  have hstart := (valueStart_eq cs).1
  have hspan := valueSpan_valuedAttribute size name start (gap ++ cs)
  rw [skipBlanks_append hgap hcs, hstart, hcut] at hspan
  have hskip : skipBlanks (gap ++ cs) = cs := skipBlanks_append hgap hcs
  refine ⟨?_, ?_⟩
  · simp only [valuedAttribute, hskip, hcut]
  · have hfound : (valuedAttribute size name start (gap ++ cs)).found =
        { name := String.ofList name
          value := String.ofList (decodeReferences (cutValue cs).1)
          span := spanBetween size start ((cutValue cs).2.2.2.getD [])
          valueSpan := (valuedAttribute size name start (gap ++ cs)).found.valueSpan
          quote := (cutValue cs).2.1 } := by
      simp only [valuedAttribute, hskip]
    rw [hfound, hspan, hcut]

variable {new : NewTexts}

/-- The text of an attribute value afterwards. -/
def NewTexts.written (new : NewTexts) (a : Attribute) (raw : List Char) : List Char :=
  (new.value a).getD raw

/-- A value in front of a rewritten rest is replaced or stays. -/
theorem Rewritten.value {size : Nat} {es : List Edit} {a : Attribute} {raw rest rest' : List Char}
    (h : Rewritten size es rest rest') (hfits : byteSize (raw ++ rest) ≤ size)
    (hspan : a.valueSpan = some (spanBetween size (raw ++ rest) rest)) :
    Rewritten size (new.edits a ++ es) (raw ++ rest) (new.written a raw ++ rest') := by
  unfold NewTexts.edits NewTexts.written
  rw [hspan]
  cases new.value a with
  | none => exact h.copy hfits
  | some t => exact h.replace hfits t

/-- The value that is read of a new text is the new value. -/
theorem NewTexts.valueOf_eq {a : Attribute} {raw : List Char}
    (h : a.value = String.ofList (decodeReferences raw)) :
    String.ofList (decodeReferences (new.written a raw)) = new.valueOf a := by
  unfold NewTexts.valueOf NewTexts.written
  cases new.value a with
  | none => exact h.symm
  | some t => rfl

namespace NewTexts.Fit

variable {a : Attribute} {raw : List Char}

/-- What is written of a value has no closing braces if the old text had none. -/
theorem written_closing (hnew : new.Fit) (hraw : ¬ ['\x7d', '\x7d'] <:+: raw) :
    ¬ ['\x7d', '\x7d'] <:+: new.written a raw := by
  unfold NewTexts.written
  cases h : new.value a with
  | none => exact hraw
  | some t => exact hnew.values a t h

/-- What is written of a value between quotes does not hold the quote. -/
theorem written_quoted {q : Char} (hnew : new.Fit) (hq : Text.isQuote q = true)
    (hquote : a.quote = some q) (hraw : q ∉ raw) :
    q ∉ new.written a raw := by
  unfold NewTexts.written
  cases h : new.value a with
  | none => exact hraw
  | some t =>
    have hfits := hnew.quotes a t h
    rw [hquote] at hfits
    exact hfits hq

/-- What is written of a bare value has only characters of bare values, and no quote in front. -/
theorem written_bare {rest rest' : List Char} (hnew : new.Fit) (hquote : a.quote = none)
    (hraw : ∀ c ∈ raw, isBare c = true)
    (hfirst : ∀ c, (raw ++ rest).head? = some c → Text.isBlank c = false ∧ Text.isQuote c = false)
    (hrest : rest'.head? = rest.head?) :
    (∀ c ∈ new.written a raw, isBare c = true) ∧ ∀ c, (new.written a raw ++ rest').head? = some c →
      Text.isBlank c = false ∧ Text.isQuote c = false := by
  unfold NewTexts.written
  cases h : new.value a with
  | none =>
    refine ⟨hraw, ?_⟩
    rwa [Option.getD_none, List.head?_append, hrest, ← List.head?_append]
  | some t =>
    have hfits := hnew.quotes a t h
    rw [hquote] at hfits
    obtain ⟨hne, hbare, hhead⟩ := hfits
    refine ⟨fun c hc => by simp [isBare, hbare c hc], fun c hc => ?_⟩
    obtain ⟨d, t, rfl⟩ := List.exists_cons_of_ne_nil hne
    obtain rfl : d = c := Option.some.inj hc
    exact ⟨(hbare d (by simp)).1, hhead d rfl⟩

end NewTexts.Fit

/-- A character of a kind that the closing brace is not of is no closing brace. -/
theorem not_brace {p : Char → Bool} {c : Char} (h : p c = true) (hbrace : p '\x7d' = false) :
    c ∉ ['\x7d', '\x7d'] := by
  have hne : c ≠ '\x7d' := by
    rintro rfl
    rw [h] at hbrace
    cases hbrace
  simpa using hne

/-- Closing braces do not come about where two texts meet, if the second one does not start with one. -/
theorem not_closing_append {front rest : List Char} (hfront : ¬ ['\x7d', '\x7d'] <:+: front)
    (hrest : ¬ ['\x7d', '\x7d'] <:+: rest)
    (hhead : ∀ c, rest.head? = some c → c ∉ ['\x7d', '\x7d']) :
    ¬ ['\x7d', '\x7d'] <:+: front ++ rest := by
  cases rest with
  | nil => rwa [List.append_nil]
  | cons c rest =>
    rw [Text.infix_append_cons (hhead c rfl), not_or]
    exact ⟨hfront, fun hin => hrest (hin.trans (List.suffix_cons c rest).isInfix)⟩

/-- A value with the text in front of it and behind it: where the new value is cut off as the old one
is, the attribute is read with the new value. -/
theorem valuedAttribute_rewritten_of {size : Nat} {es : List Edit}
    {name start gap raw closing closing' : List Char} (opening : List Char) {quote : Option Char}
    {behind behind' : Option (List Char)} {a : Attribute} (hgap : ∀ c ∈ gap, Text.isBlank c = true)
    (hcs : ∀ c, (opening ++ (raw ++ closing)).head? = some c → Text.isBlank c = false)
    (hcut : cutValue (opening ++ (raw ++ closing)) = (raw, quote, closing, behind))
    (ha : (valuedAttribute size name start (gap ++ (opening ++ (raw ++ closing)))).found = a)
    (hcs' : ∀ c, (opening ++ (new.written a raw ++ closing')).head? = some c → Text.isBlank c = false)
    (hcut' : cutValue (opening ++ (new.written a raw ++ closing')) =
      (new.written a raw, quote, closing', behind'))
    (hfits : byteSize (gap ++ (opening ++ (raw ++ closing))) ≤ size)
    (hclosing : Rewritten size es closing closing') :
    Rewritten size (new.edits a ++ es) (gap ++ (opening ++ (raw ++ closing)))
        (gap ++ (opening ++ (new.written a raw ++ closing'))) ∧
      ∀ size' start',
        let again := valuedAttribute size' name start'
          (gap ++ (opening ++ (new.written a raw ++ closing')))
        again.rest = behind'.getD [] ∧ again.found.outline (·.value) = a.outline new.valueOf := by
  obtain ⟨-, hfound⟩ := valuedAttribute_eq hgap hcs hcut
  rw [ha] at hfound
  simp only [Text.byteSize_append] at hfits
  refine ⟨?_, fun size' start' => ?_⟩
  · have hvalue : Rewritten size (new.edits a ++ es) (raw ++ closing) _ :=
      hclosing.value (by simp only [Text.byteSize_append]; omega) (by rw [hfound])
    exact (hvalue.copy (by simp only [Text.byteSize_append]; omega)).copy
      (by simp only [Text.byteSize_append]; omega)
  · obtain ⟨hrest', hfound'⟩ := valuedAttribute_eq hgap hcs' hcut'
    refine ⟨hrest', ?_⟩
    have hvalue : String.ofList (decodeReferences (new.written a raw)) = new.valueOf a :=
      NewTexts.valueOf_eq (by rw [hfound])
    rw [hfound', Attribute.outline, Attribute.outline, hvalue, hfound]
    rfl

/-- Behind its equals sign, an attribute is read again in front of `rest'`, with its new value. -/
def Revalues (new : NewTexts) (size : Nat) (es : List Edit) (name start text rest' : List Char) : Prop :=
  ∃ text', Rewritten size (new.edits (valuedAttribute size name start text).found ++ es) text text' ∧
    (¬ ['\x7d', '\x7d'] <:+: text → ¬ ['\x7d', '\x7d'] <:+: text') ∧
    ∀ size' start', (valuedAttribute size' name start' text').rest = rest' ∧
      (valuedAttribute size' name start' text').found.outline (·.value) =
        (valuedAttribute size name start text).found.outline new.valueOf

section

variable {size : Nat} {es : List Edit} {q : Char} {name start gap raw behind rest' : List Char}

/-- A value between quotes is read again with its new text. -/
theorem revalues_quoted (hnew : new.Fit) (hgap : ∀ c ∈ gap, Text.isBlank c = true)
    (hcs : ∀ c, (q :: (raw ++ q :: behind)).head? = some c → Text.isBlank c = false)
    (hq : Text.isQuote q = true) (hraw : q ∉ raw)
    (hfits : byteSize (gap ++ q :: (raw ++ q :: behind)) ≤ size)
    (hrest : Rewritten size es
      (valuedAttribute size name start (gap ++ q :: (raw ++ q :: behind))).rest rest')
    (hsame : SameAttributes
      (valuedAttribute size name start (gap ++ q :: (raw ++ q :: behind))).rest rest') :
    Revalues new size es name start (gap ++ q :: (raw ++ q :: behind)) rest' := by
  have hcut : cutValue ([q] ++ (raw ++ q :: behind)) = _ := cutValue_quoted hq hraw
  obtain ⟨hr, hfound⟩ := valuedAttribute_eq hgap hcs hcut
  obtain ⟨a, ha⟩ : ∃ a, (valuedAttribute size name start (gap ++ q :: (raw ++ q :: behind))).found = a :=
    ⟨_, rfl⟩
  have hwritten : q ∉ new.written a raw := hnew.written_quoted hq (by rw [← ha, hfound]) hraw
  rw [hr, Option.getD_some] at hrest hsame
  have hclosing : Rewritten size es ([q] ++ behind) ([q] ++ rest') := hrest.copy (by
    simp only [List.singleton_append, Text.byteSize_append, Text.byteSize_cons] at hfits ⊢
    omega)
  obtain ⟨hrewritten, hagain⟩ := valuedAttribute_rewritten_of [q] hgap hcs hcut ha hcs
    (cutValue_quoted hq hwritten) hfits hclosing
  subst ha
  refine ⟨_, hrewritten, ?_, hagain⟩
  simp only [List.singleton_append, Text.infix_append_cons (not_brace hq rfl), not_or]
  rintro ⟨hnone, hno, hbehind⟩
  exact ⟨hnone, hnew.written_closing hno, hsame.closing hbehind⟩

/-- A value behind a quote that nothing closes is read again with its new text. -/
theorem revalues_unclosed (hnew : new.Fit) (hgap : ∀ c ∈ gap, Text.isBlank c = true)
    (hcs : ∀ c, (q :: (raw ++ [])).head? = some c → Text.isBlank c = false)
    (hq : Text.isQuote q = true) (hraw : q ∉ raw) (hfits : byteSize (gap ++ q :: (raw ++ [])) ≤ size)
    (hrest : Rewritten size es (valuedAttribute size name start (gap ++ q :: (raw ++ []))).rest rest')
    (hsame : SameAttributes (valuedAttribute size name start (gap ++ q :: (raw ++ []))).rest rest') :
    Revalues new size es name start (gap ++ q :: (raw ++ [])) rest' := by
  have hcut : cutValue ([q] ++ (raw ++ [])) = _ := cutValue_unclosed hq hraw
  obtain ⟨hr, hfound⟩ := valuedAttribute_eq hgap hcs hcut
  obtain ⟨a, ha⟩ : ∃ a, (valuedAttribute size name start (gap ++ q :: (raw ++ []))).found = a :=
    ⟨_, rfl⟩
  have hwritten : q ∉ new.written a raw := hnew.written_quoted hq (by rw [← ha, hfound]) hraw
  rw [hr, Option.getD_none] at hrest hsame
  obtain rfl : rest' = [] := List.head?_eq_none_iff.1 hsame.head
  obtain ⟨hrewritten, hagain⟩ := valuedAttribute_rewritten_of [q] hgap hcs hcut ha hcs
    (cutValue_unclosed hq hwritten) hfits hrest
  subst ha
  refine ⟨_, hrewritten, ?_, hagain⟩
  simp only [List.singleton_append, List.append_nil, Text.infix_append_cons (not_brace hq rfl), not_or]
  rintro ⟨hnone, hno⟩
  exact ⟨hnone, hnew.written_closing hno⟩

/-- A bare value is read again with its new text. -/
theorem revalues_bare (hnew : new.Fit) (hgap : ∀ c ∈ gap, Text.isBlank c = true)
    (hcs : ∀ c, (raw ++ behind).head? = some c → Text.isBlank c = false)
    (hraw : ∀ c ∈ raw, isBare c = true)
    (hbehind : ∀ c, behind.head? = some c → isBare c = false)
    (hquote : ∀ c, (raw ++ behind).head? = some c → Text.isQuote c = false)
    (hfits : byteSize (gap ++ (raw ++ behind)) ≤ size)
    (hrest : Rewritten size es (valuedAttribute size name start (gap ++ (raw ++ behind))).rest rest')
    (hsame : SameAttributes (valuedAttribute size name start (gap ++ (raw ++ behind))).rest rest') :
    Revalues new size es name start (gap ++ (raw ++ behind)) rest' := by
  have hcut : cutValue ([] ++ (raw ++ behind)) = (raw, none, behind, some behind) :=
    cutValue_bare hraw hbehind hquote
  obtain ⟨hr, hfound⟩ := valuedAttribute_eq hgap hcs hcut
  obtain ⟨a, ha⟩ : ∃ a, (valuedAttribute size name start (gap ++ (raw ++ behind))).found = a :=
    ⟨_, rfl⟩
  rw [hr, Option.getD_some] at hrest hsame
  obtain ⟨hbare, hfirst⟩ : _ ∧ ∀ c, (new.written a raw ++ rest').head? = some c → _ :=
    hnew.written_bare (by rw [← ha, hfound]) hraw (fun c hc => ⟨hcs c hc, hquote c hc⟩) hsame.head
  -- The new value ends where the old one did, because what follows starts with the same character.
  have hbehind' : ∀ c, rest'.head? = some c → isBare c = false := by rwa [hsame.head]
  obtain ⟨hrewritten, hagain⟩ := valuedAttribute_rewritten_of [] hgap hcs hcut ha
    (fun c hc => (hfirst c hc).1) (cutValue_bare hbare hbehind' fun c hc => (hfirst c hc).2) hfits
    hrest
  subst ha
  refine ⟨_, hrewritten, ?_, hagain⟩
  have hblank : ∀ c ∈ gap, c ∉ ['\x7d', '\x7d'] := fun c hc => not_brace (hgap c hc) rfl
  rw [List.nil_append, Text.infix_append_of_disjoint (List.cons_ne_nil _ _) hblank,
    Text.infix_append_of_disjoint (List.cons_ne_nil _ _) hblank]
  intro hno
  have hbrace : ∀ c, rest'.head? = some c → c ∉ ['\x7d', '\x7d'] := fun c hc =>
    not_brace (p := (!isBare ·)) (by rw [hbehind' c hc]; rfl) rfl
  refine not_closing_append ?_ ?_ hbrace
  · exact hnew.written_closing fun hin => hno (hin.trans (List.prefix_append raw behind).isInfix)
  · exact hsame.closing fun hin => hno (hin.trans (List.suffix_append raw behind).isInfix)

/-- A value of any form is read again with its new text. -/
theorem valuedAttribute_rewritten (hnew : new.Fit) {text : List Char} (hfits : byteSize text ≤ size)
    (hrest : Rewritten size es (valuedAttribute size name start text).rest rest')
    (hsame : SameAttributes (valuedAttribute size name start text).rest rest') :
    Revalues new size es name start text rest' := by
  obtain ⟨gap, cs, rfl, hgap, hcs⟩ := Text.exists_run Text.isBlank text
  rcases value_cases cs with ⟨q, raw, behind, rfl, hq, hraw⟩ | ⟨q, raw, rfl, hq, hraw⟩ |
    ⟨raw, behind, rfl, hraw, hbehind, hquote⟩
  · exact revalues_quoted hnew hgap hcs hq hraw hfits hrest hsame
  · exact revalues_unclosed hnew hgap hcs hq hraw hfits hrest hsame
  · exact revalues_bare hnew hgap hcs hraw hbehind hquote hfits hrest hsame

end

/-- A name, and what ends it. -/
structure NameCut (name behind : List Char) : Prop where
  nonempty : name ≠ []
  name : ∀ c ∈ name, (!Text.endsAttributeName c) = true
  behind : ∀ c, behind.head? = some c → (!Text.endsAttributeName c) = false

/-- The name of an attribute is cut off from what ends it. -/
theorem NameCut.cutName {name behind : List Char} (h : NameCut name behind) :
    cutName (name ++ behind) = (name, behind) :=
  Prod.ext (Text.takeWhile_run h.name h.behind) (Text.dropWhile_run h.name h.behind)

/-- A name in front of an equals sign is an attribute with a value. -/
theorem attribute?_valued {size : Nat} {name behind text : List Char} (h : NameCut name behind)
    (hblanks : skipBlanks behind = '=' :: text) :
    attribute? size (name ++ behind) = some (valuedAttribute size name (name ++ behind) text) := by
  obtain ⟨c, name, rfl⟩ := List.exists_cons_of_ne_nil h.nonempty
  rw [attribute?, h.cutName]
  simp only [hblanks]

/-- A name in front of anything else is an attribute without a value. -/
theorem attribute?_bare {size : Nat} {name behind : List Char} (h : NameCut name behind)
    (hblanks : (skipBlanks behind).head? ≠ some '=') :
    attribute? size (name ++ behind) = some (bareAttribute size name (name ++ behind) behind) := by
  obtain ⟨c, name, rfl⟩ := List.exists_cons_of_ne_nil h.nonempty
  rw [attribute?, h.cutName]
  dsimp only
  split
  · next heq => exact absurd (by rw [heq]; rfl) hblanks
  · rfl

/-- An attribute starts with its name. -/
theorem exists_nameCut {size : Nat} {cs : List Char} {a : ReadAttribute}
    (h : attribute? size cs = some a) : ∃ name behind, cs = name ++ behind ∧ NameCut name behind := by
  obtain ⟨name, behind, rfl, hname, hbehind⟩ :=
    Text.exists_run (fun c => !Text.endsAttributeName c) cs
  refine ⟨name, behind, rfl, ?_, hname, hbehind⟩
  rintro rfl
  have hcut : cutName ([] ++ behind) = ([], behind) :=
    Prod.ext (Text.takeWhile_run hname hbehind) (Text.dropWhile_run hname hbehind)
  rw [attribute?, hcut] at h
  cases h

/-- A character of a name is no blank. -/
theorem isBlank_of_name {c : Char} (h : (!Text.endsAttributeName c) = true) :
    Text.isBlank c = false := by
  cases hblank : Text.isBlank c with
  | false => rfl
  | true => simp [Text.endsAttributeName, hblank] at h

/-- A text behind a name that is not empty takes no part in how the name starts. -/
theorem SameAttributes.name {name cs cs' : List Char} (h : NameCut name cs)
    (hclosing : ¬ ['\x7d', '\x7d'] <:+: name ++ cs → ¬ ['\x7d', '\x7d'] <:+: name ++ cs') :
    SameAttributes (name ++ cs) (name ++ cs') := by
  obtain ⟨c, name, rfl⟩ := List.exists_cons_of_ne_nil h.nonempty
  have hc : Text.isBlank c = false := isBlank_of_name (h.name c (by simp))
  refine ⟨rfl, ?_, hclosing⟩
  simp [skipBlanks, hc]

/-- An attribute is read again with its new value. -/
theorem attribute?_rewritten (hnew : new.Fit) {size : Nat} {cs rest' : List Char} {es : List Edit}
    {a : ReadAttribute} (h : attribute? size cs = some a) (hfits : byteSize cs ≤ size)
    (hrest : Rewritten size es a.rest rest') (hsame : SameAttributes a.rest rest') :
    ∃ cs', Rewritten size (new.edits a.found ++ es) cs cs' ∧ SameAttributes cs cs' ∧
      ∀ size', ∃ again, attribute? size' cs' = some again ∧ again.rest = rest' ∧
        again.found.outline (·.value) = a.found.outline new.valueOf := by
  obtain ⟨name, behind, rfl, hcut⟩ := exists_nameCut h
  by_cases hblanks : (skipBlanks behind).head? = some '='
  · obtain ⟨text, hblanks⟩ := List.head?_eq_some_iff.1 hblanks
    obtain rfl := Option.some.inj ((attribute?_valued hcut hblanks).symm.trans h)
    obtain ⟨gap, behind, rfl, hgap, hbehind⟩ := Text.exists_run Text.isBlank behind
    obtain rfl : behind = '=' :: text := (skipBlanks_append hgap hbehind).symm.trans hblanks
    have hequals (text : List Char) : skipBlanks (gap ++ '=' :: text) = '=' :: text :=
      skipBlanks_append hgap fun c hc => by cases hc; rfl
    simp only [Text.byteSize_append, Text.byteSize_cons] at hfits
    obtain ⟨text', hrewritten, hclosing, hagain⟩ :=
      valuedAttribute_rewritten hnew (by omega) hrest hsame
    have hcut' : NameCut name (gap ++ '=' :: text') := ⟨hcut.nonempty, hcut.name, by
      have hhead : (gap ++ '=' :: text').head? = (gap ++ '=' :: text).head? := by
        cases gap <;> rfl
      rw [hhead]
      exact hcut.behind⟩
    refine ⟨name ++ (gap ++ '=' :: text'), ?_, .name hcut ?_, fun size' =>
      ⟨_, attribute?_valued hcut' (hequals text'), hagain size' _⟩⟩
    · have hcopy : Rewritten size _ ((name ++ gap ++ ['=']) ++ text) ((name ++ gap ++ ['=']) ++ text') :=
        hrewritten.copy (by simp only [Text.byteSize_append, Text.byteSize_cons, Text.byteSize_nil]; omega)
      simpa using hcopy
    · simp only [← List.append_assoc, Text.infix_append_cons (by decide : '=' ∉ ['\x7d', '\x7d']), not_or]
      exact And.imp_right hclosing
  · obtain rfl := Option.some.inj ((attribute?_bare hcut hblanks).symm.trans h)
    have hcut' : NameCut name rest' := ⟨hcut.nonempty, hcut.name, by
      rw [hsame.head]
      exact hcut.behind⟩
    refine ⟨name ++ rest', ?_, .name hcut ?_, fun size' =>
      ⟨_, attribute?_bare hcut' (by rwa [hsame.next]), rfl, rfl⟩⟩
    · exact hrest.copy hfits
    · intro hno
      refine not_closing_append ?_ ?_ fun c hc => ?_
      · exact fun hin => hno (hin.trans (List.prefix_append name behind).isInfix)
      · exact hsame.closing fun hin => hno (hin.trans (List.suffix_append name behind).isInfix)
      · have hends : Text.endsAttributeName c = true := by simpa using hcut'.behind c hc
        exact not_brace hends rfl

/-! ## All attributes of a start tag -/

/-- One round of reading a start tag. -/
theorem attributes_eq (size : Nat) (cs : List Char) : attributes size cs =
    match skipBlanks cs with
    | [] => ⟨[], [], .unterminated, []⟩
    | '>' :: rest => ⟨[], [], .closed, rest⟩
    | '/' :: '>' :: rest => ⟨[], [], .selfClosed, rest⟩
    | c :: rest =>
      match attribute? size (c :: rest) with
      | some a => (attributes size a.rest).push a
      | none => attributes size rest := by
  rw [attributes]
  split <;> rename_i h <;> simp only [h]
  split <;> simp_all

/-- Blanks in front of what is read are copied. -/
theorem blanks_rewritten {size : Nat} {es : List Edit} {cs text text' : List Char}
    (h : skipBlanks cs = text) (hfits : byteSize cs ≤ size)
    (htext : byteSize text ≤ size → Rewritten size es text text')
    (hhead : text'.head? = text.head?)
    (hclosing : ¬ ['\x7d', '\x7d'] <:+: text → ¬ ['\x7d', '\x7d'] <:+: text') :
    ∃ cs', Rewritten size es cs cs' ∧ SameAttributes cs cs' ∧ skipBlanks cs' = text' := by
  obtain ⟨gap, behind, rfl, hgap, hbehind⟩ := Text.exists_run Text.isBlank cs
  obtain rfl : behind = text := (skipBlanks_append hgap hbehind).symm.trans h
  have hskip : skipBlanks (gap ++ text') = text' := skipBlanks_append hgap (by rwa [hhead])
  have hblank : ∀ c ∈ gap, c ∉ ['\x7d', '\x7d'] := fun c hc => not_brace (hgap c hc) rfl
  refine ⟨gap ++ text', (htext ?_).copy hfits, ⟨?_, ?_, ?_⟩, hskip⟩
  · rw [Text.byteSize_append] at hfits
    omega
  · rw [List.head?_append, hhead, ← List.head?_append]
  · rw [h, hskip, hhead]
  · rwa [Text.infix_append_of_disjoint (List.cons_ne_nil _ _) hblank,
      Text.infix_append_of_disjoint (List.cons_ne_nil _ _) hblank]

/-- A character that is no closing brace makes no closing pair. -/
theorem not_closing_cons {c : Char} {cs : List Char} (hc : c ∉ ['\x7d', '\x7d']) :
    ¬ ['\x7d', '\x7d'] <:+: c :: cs ↔ ¬ ['\x7d', '\x7d'] <:+: cs := by
  have hiff : ['\x7d', '\x7d'] <:+: [c] ++ cs ↔ ['\x7d', '\x7d'] <:+: cs :=
    Text.infix_append_of_disjoint (List.cons_ne_nil _ _) (by simpa using hc)
  exact not_congr hiff

/-- No attribute starts at a character that ends names. -/
theorem attribute?_eq_none {size : Nat} {c : Char} {rest : List Char} :
    attribute? size (c :: rest) = none ↔ Text.endsAttributeName c = true := by
  constructor
  · intro h
    cases hends : Text.endsAttributeName c with
    | true => rfl
    | false =>
      simp only [attribute?, cutName, List.takeWhile_cons, hends, Bool.not_false, if_true] at h
      split at h <;> cases h
  · intro h
    simp [attribute?, cutName, h]

/-- A start tag goes on with an attribute. -/
theorem attributes_push {size : Nat} {cs : List Char} {c : Char} {rest : List Char}
    {a : ReadAttribute} (h : skipBlanks cs = c :: rest) (ha : attribute? size (c :: rest) = some a) :
    attributes size cs = (attributes size a.rest).push a := by
  have hends : ¬ Text.endsAttributeName c = true := fun hends => by
    rw [attribute?_eq_none.2 hends] at ha
    cases ha
  rw [attributes_eq, h]
  split
  · next heq => cases heq
  · next heq =>
    obtain ⟨rfl, -⟩ := List.cons.inj heq
    exact absurd (by decide) hends
  · next heq =>
    obtain ⟨rfl, -⟩ := List.cons.inj heq
    exact absurd (by decide) hends
  · next heq =>
    obtain ⟨rfl, rfl⟩ := List.cons.inj heq
    rw [ha]

/-- A start tag goes on with a character that starts nothing. -/
theorem attributes_skip {size : Nat} {cs : List Char} {c : Char} {rest : List Char}
    (h : skipBlanks cs = c :: rest) (hends : Text.endsAttributeName c = true) (hc : c ≠ '>')
    (hslash : c = '/' → rest.head? ≠ some '>') : attributes size cs = attributes size rest := by
  rw [attributes_eq, h]
  split
  · next heq => cases heq
  · next heq =>
    obtain ⟨rfl, -⟩ := List.cons.inj heq
    exact absurd rfl hc
  · next heq =>
    obtain ⟨rfl, rfl⟩ := List.cons.inj heq
    exact absurd rfl (hslash rfl)
  · next heq =>
    obtain ⟨rfl, rfl⟩ := List.cons.inj heq
    rw [attribute?_eq_none.2 hends]

/-- The rest of a start tag is read again, with the new values of its attributes. -/
theorem attributes_rewritten (hnew : new.Fit) {size : Nat} {cs rest' : List Char} {es : List Edit}
    (hfits : byteSize cs ≤ size) (hrest : Rewritten size es (attributes size cs).rest rest')
    (hfront : SameFront (attributes size cs).rest rest') :
    ∃ cs', Rewritten size ((attributes size cs).attributes.flatMap new.edits ++ es) cs cs' ∧
      SameAttributes cs cs' ∧ ∀ size',
        (attributes size' cs').rest = rest' ∧
        (attributes size' cs').tagEnd = (attributes size cs).tagEnd ∧
        (attributes size' cs').attributes.map (·.outline (·.value)) =
          (attributes size cs).attributes.map (·.outline new.valueOf) := by
  fun_induction attributes size cs with
  | case1 cs h =>
    obtain rfl := hfront.nil
    obtain ⟨cs', hrewritten, hsame, hskip⟩ := blanks_rewritten h hfits (fun _ => hrest) rfl id
    refine ⟨cs', hrewritten, hsame, fun size' => ?_⟩
    rw [attributes_eq, hskip]
    exact ⟨rfl, rfl, rfl⟩
  | case2 cs rest h =>
    obtain ⟨cs', hrewritten, hsame, hskip⟩ :=
      blanks_rewritten h hfits hrest.cons rfl hfront.cons.closing
    refine ⟨cs', hrewritten, hsame, fun size' => ?_⟩
    rw [attributes_eq, hskip]
    exact ⟨rfl, rfl, rfl⟩
  | case3 cs rest h =>
    have hclose (hfits : byteSize ('/' :: '>' :: rest) ≤ size) :
        Rewritten size es ('/' :: '>' :: rest) ('/' :: '>' :: rest') :=
      (hrest.cons (Nat.le_trans (Text.byteSize_le_of_suffix (List.suffix_cons _ _)) hfits)).cons hfits
    obtain ⟨cs', hrewritten, hsame, hskip⟩ :=
      blanks_rewritten h hfits hclose rfl hfront.cons.cons.closing
    refine ⟨cs', hrewritten, hsame, fun size' => ?_⟩
    rw [attributes_eq, hskip]
    exact ⟨rfl, rfl, rfl⟩
  | case4 cs c rest _ _ h _ a ha _ ih =>
    obtain ⟨_, _, heq, hsuffix⟩ := attribute?_suffix ha
    obtain ⟨rfl, rfl⟩ := List.cons.inj heq
    have hless : a.rest <:+ cs :=
      (hsuffix.trans (List.suffix_cons c rest)).trans (h ▸ skipBlanks_suffix cs)
    obtain ⟨mid', hmid, hsame, hagain⟩ :=
      ih (Nat.le_trans (Text.byteSize_le_of_suffix hless) hfits) hrest hfront
    have htext : byteSize (c :: rest) ≤ size :=
      Nat.le_trans (Text.byteSize_le_of_suffix (h ▸ skipBlanks_suffix cs)) hfits
    obtain ⟨text', hwritten, hsame', hread⟩ := attribute?_rewritten hnew ha htext hmid hsame
    obtain ⟨rest'', rfl⟩ := List.head?_eq_some_iff.1 hsame'.head
    obtain ⟨cs', hrewritten, hfirst, hskip⟩ :=
      blanks_rewritten h hfits (fun _ => hwritten) rfl hsame'.closing
    refine ⟨cs', ?_, hfirst, fun size' => ?_⟩
    · rw [ReadTag.push, List.flatMap_cons, List.append_assoc]
      exact hrewritten
    · obtain ⟨again, hagain', hrest', houtline⟩ := hread size'
      obtain ⟨hstop, hend, houtlines⟩ := hagain size'
      rw [attributes_push hskip hagain', ReadTag.push, ReadTag.push, hrest', List.map_cons,
        List.map_cons, houtline, houtlines]
      exact ⟨hstop, hend, rfl⟩
  | case5 cs c rest hnot hnot' h _ ha _ ih =>
    have hends := attribute?_eq_none.1 ha
    have hless : rest <:+ cs := (List.suffix_cons c rest).trans (h ▸ skipBlanks_suffix cs)
    obtain ⟨rest'', hwritten, hsame, hagain⟩ :=
      ih (Nat.le_trans (Text.byteSize_le_of_suffix hless) hfits) hrest hfront
    have hc : c ∉ ['\x7d', '\x7d'] := not_brace hends rfl
    have hclosing : ¬ ['\x7d', '\x7d'] <:+: c :: rest → ¬ ['\x7d', '\x7d'] <:+: c :: rest'' := by
      rw [not_closing_cons hc, not_closing_cons hc]
      exact hsame.closing
    obtain ⟨cs', hrewritten, hfirst, hskip⟩ := blanks_rewritten h hfits hwritten.cons rfl hclosing
    refine ⟨cs', hrewritten, hfirst, fun size' => ?_⟩
    rw [attributes_skip hskip hends hnot ?_]
    · exact hagain size'
    · rintro rfl hhead
      rw [hsame.head] at hhead
      obtain ⟨more, rfl⟩ := List.head?_eq_some_iff.1 hhead
      exact hnot' more rfl rfl

end Stencil.Markup
