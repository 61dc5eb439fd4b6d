import Stencil.Proofs.Source.Diagnostic
import Stencil.Proofs.Text.Split
import Mathlib.Data.List.Induction

/-!
# Lines and columns

The location of an offset is found by going through the text before it and counting. The same text can
be looked at as a list of lines, which its line feeds separate. Here the two views are compared.

**The law** (`Location.ofOffset_locates`): for every offset between two characters, or at an end of
the source, the location has this offset, its line is the number of line feeds before it, and going as
many characters into that line as the column says leads to the offset again. Of two such offsets the
lesser one has the lesser location, by line and then by column, and no two have the same line and
column. So a line and a column say as much as an offset does.

The proof looks at what was gone through as lines that are ended, with a last one that is not
(`exists_ended`): their number is the line, the length of the last one the column. `lines_ended` finds
these lines among those of the whole source, where the last one goes on.

**What it does not establish.** Lines end at line feeds only; a carriage return is a character of its
line and counts in the column. Columns count characters, not the places that they take on a screen.
-/

namespace Stencil

open Text (byteSize takeBytes isBoundary)

/-! ## Lines -/

namespace Text

variable {c : Char} {as : List Char}

/-- The lines of a text, without the line feeds between them. -/
def lines (cs : List Char) : List (List Char) := splitOnChar '\n' cs

/-- The text of lines each of which is ended by a line feed. -/
def ended (ls : List (List Char)) : List Char := ls.flatMap (· ++ ['\n'])

/-- The offset at which a line starts. The lines are numbered from zero. -/
def lineStart (cs : List Char) (n : Nat) : Nat := byteSize (ended ((lines cs).take n))

/-- Each line is followed by its line feed. -/
theorem ended_cons (line : List Char) (ls : List (List Char)) :
    ended (line :: ls) = line ++ '\n' :: ended ls := by
  show line ++ ['\n'] ++ ended ls = _
  rw [List.append_assoc, List.singleton_append]

/-- One more line at the end adds its text and a line feed. -/
theorem ended_concat (ls : List (List Char)) (line : List Char) :
    ended (ls ++ [line]) = ended ls ++ line ++ ['\n'] := by
  rw [ended, List.flatMap_append, List.flatMap_singleton, ← List.append_assoc, ended]

/-- What stands before the first separator belongs to the first piece. -/
theorem splitOnChar_append_of_not_mem (h : c ∉ as) (bs : List Char) :
    splitOnChar c (as ++ bs) =
      (as ++ (splitOnChar c bs).headD []) :: (splitOnChar c bs).tail := by
  induction as with
  | nil =>
    obtain ⟨piece, pieces, hsplit⟩ := List.exists_cons_of_ne_nil (splitOnChar_ne_nil c bs)
    rw [List.nil_append, hsplit]
    rfl
  | cons a as ih =>
    rw [List.mem_cons, not_or] at h
    rw [List.cons_append, splitOnChar_cons_of_ne (Ne.symm h.1), ih h.2]
    rfl

/-- Lines that are ended are lines of the text, whatever follows them. -/
theorem lines_ended {ls : List (List Char)} (h : ∀ line ∈ ls, '\n' ∉ line) (cs : List Char) :
    lines (ended ls ++ cs) = ls ++ lines cs := by
  induction ls with
  | nil => rfl
  | cons line ls ih =>
    obtain ⟨hline, hrest⟩ := List.forall_mem_cons.1 h
    rw [ended_cons, List.append_assoc, List.cons_append, lines, splitOnChar_append_sep,
      splitOnChar_of_not_mem hline]
    exact congrArg (line :: ·) (ih hrest)

end Text

/-! ## Going through a text -/

namespace Location

variable {source : List Char} {k l m : Location}

/-- Going through a text leads as many lines further as there are line feeds in it. -/
theorem line_foldl_step (l : Location) (cs : List Char) :
    (cs.foldl step l).line = l.line + cs.count '\n' := by
  induction cs generalizing l with
  | nil => rfl
  | cons c cs ih =>
    rw [List.foldl_cons, ih, step]
    by_cases hc : c = '\n'
    · rw [if_pos hc, hc, List.count_cons_self, Nat.add_right_comm, Nat.add_assoc]
    · rw [if_neg hc, List.count_cons_of_ne hc]

/-- Behind a text stands the location with as many lines as the text has ended, and with as many columns
as the text has characters behind them. -/
theorem exists_ended (before : List Char) : ∃ ls rest, before = Text.ended ls ++ rest ∧
    (∀ line ∈ ls, '\n' ∉ line) ∧ '\n' ∉ rest ∧
    before.foldl step origin = ⟨byteSize before, ls.length, rest.length⟩ := by
  induction before using List.reverseRecOn with
  | nil => exact ⟨[], [], rfl, nofun, nofun, rfl⟩
  | append_singleton before c ih =>
    obtain ⟨ls, rest, hbefore, hls, hrest, hlocation⟩ := ih
    have hsize : byteSize (before ++ [c]) = byteSize before + c.utf8Size := by
      rw [Text.byteSize_append, Text.byteSize_cons, Text.byteSize_nil, Nat.add_zero]
    rw [List.foldl_concat, hlocation, step, hsize]
    by_cases hc : c = '\n'
    · -- the line feed ends the line that was gone through
      refine ⟨ls ++ [rest], [], ?_, ?_, List.not_mem_nil, ?_⟩
      · rw [Text.ended_concat, List.append_nil, hbefore, hc]
      · intro line hline
        rcases List.mem_append.1 hline with hline | hline
        · exact hls line hline
        · rw [List.mem_singleton.1 hline]
          exact hrest
      · rw [if_pos hc, List.length_append, List.length_singleton, List.length_nil]
    · refine ⟨ls, rest ++ [c], ?_, hls, ?_, ?_⟩
      · rw [hbefore, List.append_assoc]
      · intro hmem
        rcases List.mem_append.1 hmem with hmem | hmem
        · exact hrest hmem
        · exact hc (List.mem_singleton.1 hmem).symm
      · rw [if_neg hc, List.length_append, List.length_singleton]

/-- The line of the location is a line of the source, and going as many characters into it as the column
says leads to the offset. -/
theorem exists_line {n : Nat} (h : isBoundary n source = true) :
    ∃ line, (Text.lines source)[(ofOffset source n).line]? = some line ∧
      (ofOffset source n).column ≤ line.length ∧
      Text.lineStart source (ofOffset source n).line +
        byteSize (line.take (ofOffset source n).column) = n := by
  obtain ⟨before, after, rfl, rfl⟩ := Text.isBoundary_iff.1 h
  obtain ⟨ls, rest, hbefore, hls, hrest, hlocation⟩ := exists_ended before
  obtain ⟨more, lines, hlines⟩ : ∃ more lines,
      Text.lines (before ++ after) = ls ++ (rest ++ more) :: lines := by
    rw [hbefore, List.append_assoc, Text.lines_ended hls, Text.lines,
      Text.splitOnChar_append_of_not_mem hrest]
    exact ⟨_, _, rfl⟩
  rw [ofOffset, Text.takeBytes_append, hlocation]
  refine ⟨rest ++ more, ?_, ?_, ?_⟩
  · rw [hlines, List.getElem?_append_right (Nat.le_refl _), Nat.sub_self]
    rfl
  · rw [List.length_append]
    exact Nat.le_add_right _ _
  · rw [Text.lineStart, hlines, List.take_left, List.take_left, ← Text.byteSize_append, ← hbefore]

/-! ## The order of locations -/

/-- The location is on an earlier line, or on the same line and in an earlier column. -/
def Before (k l : Location) : Prop := k.line < l.line ∨ k.line = l.line ∧ k.column < l.column

/-- Locations are ordered: later than later is later. -/
theorem Before.trans (h : k.Before l) (h' : l.Before m) : k.Before m := by
  unfold Before at *
  omega

/-- No location is both before and after another one. -/
theorem Before.asymm (h : k.Before l) : ¬ l.Before k := by
  unfold Before at *
  omega

/-- One character leads to the next column, or to the next line. -/
theorem before_step (l : Location) (c : Char) : l.Before (l.step c) := by
  unfold step
  split
  · left
    exact Nat.lt_succ_self l.line
  · right
    exact ⟨rfl, Nat.lt_succ_self l.column⟩

/-- Each character leads further. -/
theorem before_foldl_step (l : Location) {cs : List Char} (h : cs ≠ []) :
    l.Before (cs.foldl step l) := by
  induction cs generalizing l with
  | nil => exact absurd rfl h
  | cons c cs ih =>
    cases cs with
    | nil => exact before_step l c
    | cons d cs => exact (before_step l c).trans (ih (l.step c) (List.cons_ne_nil d cs))

/-- The location of the lesser offset is before that of the greater one. -/
theorem before_of_lt {n other : Nat} (h : isBoundary n source = true)
    (hother : isBoundary other source = true) (hlt : n < other) :
    (ofOffset source n).Before (ofOffset source other) := by
  obtain ⟨before, after, rfl, rfl⟩ := Text.isBoundary_iff.1 h
  obtain ⟨upto, rest, heq, rfl⟩ := Text.isBoundary_iff.1 hother
  obtain ⟨between, rfl⟩ : before <+: upto :=
    Text.prefix_of_byteSize_le ⟨after, rfl⟩ ⟨rest, heq.symm⟩ (Nat.le_of_lt hlt)
  have hne : between ≠ [] := by
    rintro rfl
    rw [List.append_nil] at hlt
    exact Nat.lt_irrefl _ hlt
  have hupto : takeBytes (byteSize (before ++ between)) (before ++ after) = before ++ between := by
    rw [heq, Text.takeBytes_append]
  rw [ofOffset, ofOffset, Text.takeBytes_append, hupto, List.foldl_append]
  exact before_foldl_step _ hne

/-- Locations are ordered as their offsets are. -/
theorem before_iff_lt {n other : Nat} (h : isBoundary n source = true)
    (hother : isBoundary other source = true) :
    (ofOffset source n).Before (ofOffset source other) ↔ n < other := by
  constructor
  · intro hbefore
    rcases Nat.lt_trichotomy n other with hlt | rfl | hgt
    · exact hlt
    · exact absurd hbefore hbefore.asymm
    · exact absurd hbefore (before_of_lt hother h hgt).asymm
  · exact before_of_lt h hother

/-- The location of an offset between two characters, or at an end of the source, has this offset; its
line is the number of the line feeds before it; and its column leads from the start of that line of the
source to the offset. Locations are ordered as the offsets are, first by line and then by column, so no
two offsets have the same line and column. -/
theorem ofOffset_locates {source : List Char} {offset : Nat}
    (h : isBoundary offset source = true) :
    let l := ofOffset source offset
    l.offset = offset ∧ l.line = (takeBytes offset source).count '\n' ∧
      (∃ line, (Text.lines source)[l.line]? = some line ∧ l.column ≤ line.length ∧
        Text.lineStart source l.line + byteSize (line.take l.column) = offset) ∧
      ∀ other, isBoundary other source = true →
        let m := ofOffset source other
        (l.Before m ↔ offset < other) ∧ (l.line = m.line → l.column = m.column → offset = other) := by
  intro l
  have hline : l.line = (takeBytes offset source).count '\n' :=
    (line_foldl_step origin _).trans (Nat.zero_add _)
  refine ⟨offset_ofOffset_of_boundary h, hline, exists_line h, ?_⟩
  intro other hother m
  refine ⟨before_iff_lt h hother, ?_⟩
  intro hsameLine hsameColumn
  -- If the offsets were different, one location would be before the other one, by its line or by its
  -- column.
  have hforth : ¬ offset < other := fun hlt => by
    have hbefore : l.Before m := before_of_lt h hother hlt
    unfold Before at hbefore
    omega
  have hback : ¬ other < offset := fun hlt => by
    have hbefore : m.Before l := before_of_lt hother h hlt
    unfold Before at hbefore
    omega
  omega

/-- A location in the third line, behind a character of two bytes and an empty line. -/
theorem ofOffset_locates_third_line :
    let source := "\u00e9\n\n \u00fcx".toList
    isBoundary 7 source = true ∧
      (ofOffset source 7).line = 2 ∧ (ofOffset source 7).column = 2 ∧
      (∃ line, (Text.lines source)[2]? = some line ∧
        Text.lineStart source 2 + byteSize (line.take 2) = 7) ∧
      ((ofOffset source 7).Before (ofOffset source 8) ↔ 7 < 8) := by
  intro source
  have hboundary : isBoundary 7 source = true := by decide
  obtain ⟨-, -, ⟨line, hline, -, hwalk⟩, horder⟩ := ofOffset_locates hboundary
  exact ⟨hboundary, by decide, by decide, ⟨line, hline, hwalk⟩, (horder 8 (by decide)).1⟩

end Location

end Stencil
