import Stencil.Markup.Marker
import Stencil.Markup.Piece

/-!
# What a span of a source holds

A span is a pair of numbers; that it means anything depends on the source. `Span.Holds` says that a
span cuts a given piece out of a given source: the source is some text in front, the piece and some
text behind, and the span starts where the front ends and stops where the rest begins. Everything that
is later said of spans is said in this form, so nothing has to be known about offsets inside of a
character.

`Span.Holds.slice` is what it is for: slicing the source at the span gives the piece. The others are
the moves that readers make: a span inside of a held piece (`Holds.shift`), the rest of a piece whose
front was read (`Holds.behind`), pieces that follow each other (`Holds.append`). `isBoundary_iff`
leads from the other view: an offset is between two characters if a front of the text ends there.

The last section is about readers that give no offsets but the text they leave unread. Then the span
is between two rests of one source, and `holds_spanBetween` and `cuts_spanBetween` say what it holds.

**What it does not establish.** A span that holds a piece of one source holds nothing of another one:
whenever a text is changed, the spans into the new text are shown anew.
-/

namespace Stencil

open Text (byteSize takeBytes dropBytes)

/-! ## Cutting between characters -/

namespace Text

/-- A text with a character has a byte. -/
theorem byteSize_pos {cs : List Char} (h : cs ≠ []) : 0 < byteSize cs := by
  obtain ⟨c, cs, rfl⟩ := List.exists_cons_of_ne_nil h
  have := c.utf8Size_pos
  rw [byteSize_cons]
  omega

/-- Only the empty text has no bytes. -/
theorem eq_nil_of_byteSize {cs : List Char} (h : byteSize cs = 0) : cs = [] := by
  cases cs with
  | nil => rfl
  | cons c cs =>
    have := byteSize_pos (List.cons_ne_nil c cs)
    omega

/-- What is left of a text has no more bytes than the text. -/
theorem byteSize_le_of_suffix {as bs : List Char} (h : as <:+ bs) : byteSize as ≤ byteSize bs := by
  obtain ⟨front, rfl⟩ := h
  rw [byteSize_append]
  exact Nat.le_add_left _ _

/-- Cutting where a prefix ends gives the prefix. -/
theorem takeBytes_append (as bs : List Char) : takeBytes (byteSize as) (as ++ bs) = as := by
  induction as with
  | nil => cases bs <;> simp [takeBytes]
  | cons a as ih =>
    have := a.utf8Size_pos
    rw [byteSize_cons, List.cons_append, takeBytes, if_neg (by omega), Nat.add_sub_cancel_left, ih]

/-- Cutting where a prefix ends leaves what follows it. -/
theorem dropBytes_append (as bs : List Char) : dropBytes (byteSize as) (as ++ bs) = bs := by
  have h := takeBytes_append_dropBytes (byteSize as) (as ++ bs)
  rw [takeBytes_append] at h
  exact List.append_cancel_left h

/-- Of two prefixes of a text, the one with fewer bytes is a prefix of the other. -/
theorem prefix_of_byteSize_le {cs as bs : List Char} (ha : as <+: cs) (hb : bs <+: cs)
    (h : byteSize as ≤ byteSize bs) : as <+: bs := by
  rcases List.prefix_or_prefix_of_prefix ha hb with hab | ⟨t, rfl⟩
  · exact hab
  · rw [byteSize_append] at h
    obtain rfl : t = [] := eq_nil_of_byteSize (by omega)
    simp

/-- A boundary of a text is where one of its prefixes ends. -/
theorem isBoundary_iff {n : Nat} {cs : List Char} :
    isBoundary n cs = true ↔ ∃ before after, cs = before ++ after ∧ n = byteSize before := by
  induction cs generalizing n with
  | nil => simp [isBoundary]
  | cons c cs ih =>
    have hpos := c.utf8Size_pos
    simp only [isBoundary, Bool.or_eq_true, beq_iff_eq, Bool.and_eq_true, decide_eq_true_eq, ih]
    constructor
    · rintro (rfl | ⟨hle, before, after, rfl, hn⟩)
      · exact ⟨[], c :: cs, rfl, rfl⟩
      · exact ⟨c :: before, after, rfl, by rw [byteSize_cons]; omega⟩
    · rintro ⟨_ | ⟨d, before⟩, after, heq, rfl⟩
      · exact .inl rfl
      · obtain ⟨rfl, rfl⟩ := List.cons.inj heq
        refine .inr ⟨by rw [byteSize_cons]; omega, before, after, rfl, ?_⟩
        rw [byteSize_cons, Nat.add_sub_cancel_left]

end Text

/-! ## Holding a piece -/

/-- The span cuts the piece out of the source. -/
def Span.Holds (source : List Char) (span : Span) (piece : List Char) : Prop :=
  ∃ before after, source = before ++ piece ++ after ∧
    span = ⟨byteSize before, byteSize before + byteSize piece⟩

namespace Span

variable {source piece : List Char} {span : Span}

/-- A span is as long as the piece it holds. -/
theorem Holds.stop_eq (h : span.Holds source piece) : span.stop = span.start + byteSize piece := by
  obtain ⟨before, after, -, rfl⟩ := h
  rfl

/-- A span that holds a piece ends within the source. -/
theorem Holds.stop_le (h : span.Holds source piece) : span.stop ≤ byteSize source := by
  obtain ⟨before, after, rfl, rfl⟩ := h
  simp only [Text.byteSize_append]
  omega

/-- A span that holds a piece with a character in it is not empty. -/
theorem Holds.start_lt (h : span.Holds source piece) (hne : piece ≠ []) :
    span.start < span.stop := by
  have := Text.byteSize_pos hne
  rw [h.stop_eq]
  omega

/-- Slicing the source at the span gives the piece. -/
theorem Holds.slice (h : span.Holds source piece) :
    Text.slice span.start span.stop source = piece := by
  obtain ⟨before, after, rfl, rfl⟩ := h
  simp only [Text.slice, List.append_assoc, Text.dropBytes_append, Nat.add_sub_cancel_left,
    Text.takeBytes_append]

/-- A span that is held by a held text is held by the source. -/
theorem Holds.shift {text : List Char} {outer : Span} (h : outer.Holds source text)
    (hin : span.Holds text piece) :
    Holds source ⟨outer.start + span.start, outer.start + span.stop⟩ piece := by
  obtain ⟨before, after, rfl, rfl⟩ := h
  obtain ⟨left, right, rfl, rfl⟩ := hin
  refine ⟨before ++ left, right ++ after, by simp, ?_⟩
  simp [Nat.add_assoc]

/-- A span whose start is moved holds what is left of its piece. -/
theorem Holds.behind {front : List Char} (h : span.Holds source (front ++ piece)) :
    Holds source ⟨span.start + byteSize front, span.stop⟩ piece := by
  obtain ⟨before, after, rfl, rfl⟩ := h
  exact ⟨before ++ front, after, by simp, by simp [Nat.add_assoc]⟩

/-- Spans that follow each other without a gap hold what they hold, put together. -/
theorem Holds.append {a b : Span} {x y : List Char} (ha : a.Holds source x) (hb : b.Holds source y)
    (h : a.stop = b.start) : Holds source ⟨a.start, b.stop⟩ (x ++ y) := by
  obtain ⟨before, after, rfl, rfl⟩ := ha
  obtain ⟨before', after', heq, rfl⟩ := hb
  simp only [← Text.byteSize_append] at h
  obtain ⟨t, rfl⟩ : before ++ x <+: before' :=
    Text.prefix_of_byteSize_le ⟨after, rfl⟩ ⟨y ++ after', by rw [heq, List.append_assoc]⟩ (by omega)
  rw [Text.byteSize_append (before ++ x)] at h
  obtain rfl : t = [] := Text.eq_nil_of_byteSize (by omega)
  refine ⟨before, after', by rw [heq]; simp, ?_⟩
  simp [Nat.add_assoc]

/-- The span is not empty, and both of its ends fall between characters of the source. -/
structure Cuts (source : List Char) (span : Span) : Prop where
  start : Text.isBoundary span.start source = true
  stop : Text.isBoundary span.stop source = true
  proper : span.start < span.stop

/-- A span that holds a piece with a character in it cuts it out of the source. -/
theorem Holds.cuts (h : span.Holds source piece) (hne : piece ≠ []) : span.Cuts source := by
  have hlt := h.start_lt hne
  obtain ⟨before, after, rfl, rfl⟩ := h
  refine ⟨Text.isBoundary_iff.2 ⟨before, piece ++ after, by simp, rfl⟩,
    Text.isBoundary_iff.2 ⟨before ++ piece, after, by simp, by simp⟩, hlt⟩

/-- What a span cuts out. -/
theorem Cuts.holds (h : span.Cuts source) : ∃ piece, piece ≠ [] ∧ span.Holds source piece := by
  obtain ⟨before, rest, rfl, hstart⟩ := Text.isBoundary_iff.1 h.start
  obtain ⟨upto, after, heq, hstop⟩ := Text.isBoundary_iff.1 h.stop
  have hlt := h.proper
  obtain ⟨piece, rfl⟩ : before <+: upto :=
    Text.prefix_of_byteSize_le ⟨rest, rfl⟩ ⟨after, heq.symm⟩ (by omega)
  rw [Text.byteSize_append] at hstop
  refine ⟨piece, ?_, before, after, heq, ?_⟩
  · rintro rfl
    rw [Text.byteSize_nil] at hstop
    omega
  · show (⟨span.start, span.stop⟩ : Span) = _
    rw [hstart, hstop]

/-- A span that cuts ends within the source. -/
theorem Cuts.stop_le (h : span.Cuts source) : span.stop ≤ byteSize source := by
  obtain ⟨piece, -, hpiece⟩ := h.holds
  exact hpiece.stop_le

/-- Two spans of which none reaches into the other. -/
def Apart (a b : Span) : Prop := a.stop ≤ b.start ∨ b.stop ≤ a.start

theorem Apart.symm {a b : Span} (h : Apart a b) : Apart b a := Or.symm h

/-- What is apart from a span is apart from all that lies in it. -/
theorem Apart.mono {a b c : Span} (h : Apart a b) (hstart : b.start ≤ c.start)
    (hstop : c.stop ≤ b.stop) : Apart a c := by
  unfold Apart at h ⊢
  omega

/-- A span inside of another one. -/
def Inside (a b : Span) : Prop := b.start ≤ a.start ∧ a.stop ≤ b.stop ∧ a ≠ b

instance (a b : Span) : Decidable (Inside a b) :=
  inferInstanceAs (Decidable (_ ∧ _ ∧ _))

end Span

/-! ## Spans of unread text -/

namespace Markup

/-- The offset of a rest is the size of what was read. -/
theorem offsetOf_append (before rest : List Char) :
    offsetOf (byteSize (before ++ rest)) rest = byteSize before := by
  rw [offsetOf, Text.byteSize_append, Nat.add_sub_cancel]

/-- The span between two ends of a source holds what was read between them. -/
theorem holds_spanBetween {source start stop piece : List Char} (hs : start <:+ source)
    (h : start = piece ++ stop) : (spanBetween (byteSize source) start stop).Holds source piece := by
  obtain ⟨before, rfl⟩ := hs
  refine ⟨before, stop, by simp [h], ?_⟩
  have hstop : offsetOf (byteSize (before ++ start)) stop = byteSize (before ++ piece) := by
    rw [h, ← List.append_assoc, offsetOf_append]
  rw [spanBetween, offsetOf_append, hstop, Text.byteSize_append]

/-- Reading at least one character cuts a piece out of the source. -/
theorem cuts_spanBetween {source stop cs : List Char} {c : Char} (hs : c :: cs <:+ source)
    (h : stop <:+ cs) : (spanBetween (byteSize source) (c :: cs) stop).Cuts source := by
  obtain ⟨piece, rfl⟩ := h
  have hheld : (spanBetween (byteSize source) (c :: (piece ++ stop)) stop).Holds source (c :: piece) :=
    holds_spanBetween hs rfl
  exact hheld.cuts (List.cons_ne_nil _ _)

/-- Reading on increases the offset. -/
theorem offsetOf_mono {size : Nat} {as bs : List Char} (h : bs <:+ as) :
    offsetOf size as ≤ offsetOf size bs := by
  obtain ⟨t, rfl⟩ := h
  rw [offsetOf, offsetOf, Text.byteSize_append]
  omega

end Markup

end Stencil
