import Stencil.Proofs.Source.Held
import Stencil.Source.Location

/-!
# The surroundings of a location

A message shows a place with what stands before and after it, and both sides are limited: they have no
more than a number of characters, and fewer line feeds than a number of lines, which is one at least.

**The law** (`Location.around_longest`): of a source that is not empty, the two sides that are shown
are those that end and begin at the place, keep within the limits and are the longest to do so. The
limits are the structure `InWindow`, being the longest is `IsLongest`; neither says how the sides are
found.

The text in front of the place is read backwards, from the place on, so one lemma about fronts of a
text serves both sides. `window_front` and `inWindow_window` say that the window is a front that keeps
within the limits, `prefix_window` that no longer one does. The induction is along the text: a line
feed takes one from the lines, any other character from the characters only (`inWindow_newline_cons`,
`inWindow_cons`), and what is left is a window with the limits that are left.

**What it does not establish.** An empty source has no surroundings; nothing is shown of it.
-/

namespace Stencil

open Text (byteSize takeBytes dropBytes isBoundary)

/-! ## Windows -/

/-- The piece keeps within the limits of a window. Every window has one line at least. -/
structure InWindow (chars lines : Nat) (piece : List Char) : Prop where
  length_le : piece.length ≤ chars
  count_lt : piece.count '\n' < max lines 1

section

variable {chars lines : Nat} {c : Char} {piece cs : List Char}

theorem inWindow_nil : InWindow chars lines [] := ⟨Nat.zero_le _, by rw [List.count_nil]; omega⟩

/-- A line feed takes a character and a line from the limits, and a line has to be left. -/
theorem inWindow_newline_cons : InWindow (chars + 1) lines ('\n' :: piece) ↔
    1 < lines ∧ InWindow chars (lines - 1) piece := by
  constructor
  · rintro ⟨hlength, hcount⟩
    rw [List.length_cons] at hlength
    rw [List.count_cons_self] at hcount
    exact ⟨by omega, by omega, by omega⟩
  · rintro ⟨hlines, hlength, hcount⟩
    refine ⟨Nat.succ_le_succ hlength, ?_⟩
    rw [List.count_cons_self]
    omega

/-- Any other character takes a character from the limits. -/
theorem inWindow_cons (hc : c ≠ '\n') :
    InWindow (chars + 1) lines (c :: piece) ↔ InWindow chars lines piece := by
  constructor
  · rintro ⟨hlength, hcount⟩
    rw [List.count_cons_of_ne hc] at hcount
    exact ⟨Nat.le_of_succ_le_succ hlength, hcount⟩
  · rintro ⟨hlength, hcount⟩
    refine ⟨Nat.succ_le_succ hlength, ?_⟩
    rwa [List.count_cons_of_ne hc]

/-- A piece that is read backwards has as many characters and as many line feeds. -/
theorem inWindow_reverse : InWindow chars lines piece.reverse ↔ InWindow chars lines piece := by
  constructor
  · rintro ⟨hlength, hcount⟩
    exact ⟨by rwa [List.length_reverse] at hlength, by rwa [List.count_reverse] at hcount⟩
  · rintro ⟨hlength, hcount⟩
    exact ⟨by rwa [List.length_reverse], by rwa [List.count_reverse]⟩

/-- The window is a front of the text. -/
theorem window_front (chars lines : Nat) (cs : List Char) : window chars lines cs <+: cs := by
  fun_induction window chars lines cs with
  | case1 => exact List.nil_prefix
  | case2 => exact List.nil_prefix
  | case3 => exact List.nil_prefix
  | case4 _ _ _ _ ih => exact List.cons_prefix_cons.2 ⟨rfl, ih⟩
  | case5 _ _ _ _ _ ih => exact List.cons_prefix_cons.2 ⟨rfl, ih⟩

/-- The window keeps within the limits. -/
theorem inWindow_window (chars lines : Nat) (cs : List Char) :
    InWindow chars lines (window chars lines cs) := by
  fun_induction window chars lines cs with
  | case1 => exact inWindow_nil
  | case2 => exact inWindow_nil
  | case3 => exact inWindow_nil
  | case4 lines chars cs hlines ih => exact inWindow_newline_cons.2 ⟨by omega, ih⟩
  | case5 lines chars c cs hc ih => exact (inWindow_cons hc).2 ih

/-- No front of the text that keeps within the limits goes beyond the window. -/
theorem prefix_window (hfront : piece <+: cs) (hin : InWindow chars lines piece) :
    piece <+: window chars lines cs := by
  induction cs generalizing chars lines piece with
  | nil => rw [List.prefix_nil.1 hfront]; exact List.nil_prefix
  | cons c cs ih =>
    cases piece with
    | nil => exact List.nil_prefix
    | cons d piece =>
      obtain ⟨rfl, hrest⟩ := List.cons_prefix_cons.1 hfront
      cases chars with
      | zero => exact absurd hin.length_le (Nat.not_succ_le_zero _)
      | succ chars =>
        rw [window]
        -- Both the front and the window go one character further, with the same limits left.
        by_cases hc : d = '\n'
        · subst hc
          obtain ⟨hlines, hin⟩ := inWindow_newline_cons.1 hin
          rw [if_pos rfl, if_neg (by omega)]
          exact List.cons_prefix_cons.2 ⟨rfl, ih hrest hin⟩
        · rw [if_neg hc]
          exact List.cons_prefix_cons.2 ⟨rfl, ih hrest ((inWindow_cons hc).1 hin)⟩

end

/-! ## Both sides of an offset -/

/-- The piece stands in the source and ends at the offset. -/
def EndsAt (source : List Char) (offset : Nat) (piece : List Char) : Prop :=
  ∃ start, Span.Holds source ⟨start, offset⟩ piece

/-- The piece stands in the source and begins at the offset. -/
def BeginsAt (source : List Char) (offset : Nat) (piece : List Char) : Prop :=
  ∃ stop, Span.Holds source ⟨offset, stop⟩ piece

/-- The piece is of the kind, and no other piece of the kind is longer. -/
def IsLongest (kind : List Char → Prop) (piece : List Char) : Prop :=
  kind piece ∧ ∀ other, kind other → other.length ≤ piece.length

section

variable {front back piece : List Char}

/-- What ends at the place is an end of the text in front of it. -/
theorem endsAt_iff : EndsAt (front ++ back) (byteSize front) piece ↔ piece <:+ front := by
  constructor
  · rintro ⟨start, before, after, hsource, hspan⟩
    obtain ⟨-, hstop⟩ := Span.mk.inj hspan
    have hfront : front = before ++ piece := by
      rw [← Text.takeBytes_append front back, hsource, hstop, ← Text.byteSize_append,
        Text.takeBytes_append]
    exact ⟨before, hfront.symm⟩
  · rintro ⟨before, rfl⟩
    exact ⟨byteSize before, before, back, rfl, by rw [Text.byteSize_append]⟩

/-- What begins at the place is a front of the text behind it. -/
theorem beginsAt_iff : BeginsAt (front ++ back) (byteSize front) piece ↔ piece <+: back := by
  constructor
  · rintro ⟨stop, before, after, hsource, hspan⟩
    obtain ⟨hstart, -⟩ := Span.mk.inj hspan
    have hback : back = piece ++ after := by
      rw [← Text.dropBytes_append front back, hsource, hstart, List.append_assoc,
        Text.dropBytes_append]
    exact ⟨after, hback.symm⟩
  · rintro ⟨after, rfl⟩
    exact ⟨_, front, after, (List.append_assoc _ _ _).symm, rfl⟩

end

/-- The surroundings of a location of a source that is not empty, between two characters or at an end of
it: the longest piece that ends there and the longest piece that begins there, of those that have no more
characters than asked for and fewer line feeds than the number of lines, or than one if that is zero. -/
theorem Location.around_longest {source : List Char} {l : Location} (hne : source ≠ [])
    (h : isBoundary l.offset source = true) (chars lines : Nat) :
    ∃ before after, l.around source chars lines = some (before, after) ∧
      IsLongest (fun piece => EndsAt source l.offset piece ∧ InWindow chars lines piece) before ∧
      IsLongest (fun piece => BeginsAt source l.offset piece ∧ InWindow chars lines piece) after := by
  obtain ⟨front, back, rfl, hoffset⟩ := Text.isBoundary_iff.1 h
  have haround : l.around (front ++ back) chars lines =
      some ((window chars lines front.reverse).reverse, window chars lines back) := by
    unfold Location.around
    rw [if_neg (by rwa [List.isEmpty_iff]), hoffset, Text.takeBytes_append, Text.dropBytes_append]
  rw [hoffset]
  -- The front is read backwards: the longest front of the reversed text is the longest end.
  refine ⟨_, _, haround, ⟨⟨?_, ?_⟩, ?_⟩, ⟨⟨?_, ?_⟩, ?_⟩⟩
  · apply endsAt_iff.2
    rw [← List.reverse_prefix, List.reverse_reverse]
    exact window_front _ _ _
  · exact inWindow_reverse.2 (inWindow_window _ _ _)
  · rintro piece ⟨hends, hin⟩
    have hfront : piece.reverse <+: front.reverse := List.reverse_prefix.2 (endsAt_iff.1 hends)
    have hle := (prefix_window hfront (inWindow_reverse.2 hin)).length_le
    rwa [List.length_reverse] at hle ⊢
  · exact beginsAt_iff.2 (window_front _ _ _)
  · exact inWindow_window _ _ _
  · rintro piece ⟨hbegins, hin⟩
    exact (prefix_window (beginsAt_iff.1 hbegins) hin).length_le

/-- With five characters and two lines, it is a line feed that ends what is shown in front of the place,
and the number of characters that ends what is shown behind it. -/
theorem Location.around_longest_two_lines :
    let source := "a\nb\ncd \u00e9\nxyz".toList
    let l : Location := .ofOffset source 6
    isBoundary l.offset source = true ∧
      ∃ before after, l.around source 5 2 = some (before, after) ∧ before = "b\ncd".toList ∧
        after = " \u00e9\nxy".toList ∧
        IsLongest (fun piece => EndsAt source l.offset piece ∧ InWindow 5 2 piece) before ∧
        IsLongest (fun piece => BeginsAt source l.offset piece ∧ InWindow 5 2 piece) after := by
  intro source l
  have hboundary : isBoundary l.offset source = true := by decide
  have hcut : l.around source 5 2 = some ("b\ncd".toList, " \u00e9\nxy".toList) := by decide
  obtain ⟨before, after, haround, hbefore, hafter⟩ :=
    Location.around_longest (List.cons_ne_nil _ _ : source ≠ []) hboundary 5 2
  obtain ⟨rfl, rfl⟩ := Prod.mk.inj (Option.some.inj (hcut.symm.trans haround))
  exact ⟨hboundary, _, _, haround, rfl, rfl, hbefore, hafter⟩

end Stencil
