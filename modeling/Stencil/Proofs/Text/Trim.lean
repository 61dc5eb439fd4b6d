import Stencil.Proofs.Text.Search
import Stencil.Text.CharClass
import Stencil.Text.WhiteSpace
import Mathlib.Data.List.TakeWhile

/-!
# Trimmed texts

Names, types and modifiers are cut out of larger texts and trimmed before they are read, so a reader
that is proved right on one text has to be known to see that text and not one with a blank at its end.

**The law** (`exists_trim`): a text is its trimmed text with white space on both sides. With
`not_isWhiteSpace_head?_trim` and `not_isWhiteSpace_getLast?_trim`, which say that no white space is
left at the ends, the trimmed text is determined by the text, and `trim_eq_self` and `trim_pad`
follow: a text without white space at its ends is its own trimmed text, whatever white space is put
around it.

Two classes of characters meet here. What the lexer skips between tokens (`isBlank`) is white space,
and every white space is skipped by it; no character of an identifier is white space
(`not_isWhiteSpace_of_isIdentifierPart`), so trimming never shortens a name.

**What it does not establish.** White space inside of a text is not looked at: trimming keeps it, and
whether a reader accepts it there is shown with that reader.
-/

namespace Stencil.Text

variable {c : Char} {cs : List Char}

/-- What the lexer skips is white space. -/
theorem isWhiteSpace_of_isBlank (h : isBlank c = true) : isWhiteSpace c = true := by
  simp only [isBlank, Bool.or_eq_true, beq_iff_eq] at h
  rcases h with ((((((rfl | rfl) | rfl) | rfl) | rfl) | rfl) | rfl) <;> decide +kernel

/-- What trimming keeps is not skipped by the lexer. -/
theorem isBlank_of_not_isWhiteSpace (h : isWhiteSpace c = false) : isBlank c = false := by
  rw [Bool.eq_false_iff]
  intro hblank
  rw [isWhiteSpace_of_isBlank hblank] at h
  cases h

/-- No character of an identifier is white space. -/
theorem not_isWhiteSpace_of_isIdentifierPart (h : isIdentifierPart c = true) :
    isWhiteSpace c = false := by
  have hall : whiteSpaceIntervals.all (fun i => (List.range (i.2 + 1 - i.1)).all fun n =>
      !isIdentifierPart (Char.ofNat (i.1 + n))) = true := by decide +kernel
  rw [Bool.eq_false_iff]
  intro hspace
  obtain ⟨i, hi, hin⟩ := List.any_eq_true.1 hspace
  have hbounds : i.1 ≤ c.toNat ∧ c.toNat ≤ i.2 := by simpa [Interval.contains] using hin
  have hmem : c.toNat - i.1 ∈ List.range (i.2 + 1 - i.1) := List.mem_range.2 (by omega)
  have hnot := List.all_eq_true.1 (List.all_eq_true.1 hall i hi) _ hmem
  rw [Nat.add_sub_cancel' hbounds.1, Char.ofNat_toNat, h] at hnot
  cases hnot

/-- An identifier has only characters that may stand in one, its first included. -/
theorem isIdentifierPart_of_isIdentifier (h : isIdentifier cs = true) :
    ∀ c ∈ cs, isIdentifierPart c = true := by
  cases cs with
  | nil => exact nofun
  | cons c cs =>
    obtain ⟨hstart, hparts⟩ := Bool.and_eq_true_iff.1 h
    exact List.forall_mem_cons.2
      ⟨by rw [isIdentifierPart, hstart, Bool.true_or], List.all_eq_true.1 hparts⟩

/-- An identifier has no white space in it. -/
theorem not_isWhiteSpace_of_isIdentifier (h : isIdentifier cs = true) :
    ∀ c ∈ cs, isWhiteSpace c = false := fun c hc =>
  not_isWhiteSpace_of_isIdentifierPart (isIdentifierPart_of_isIdentifier h c hc)

/-- White space that is dropped from the front is dropped to its end. -/
theorem not_isWhiteSpace_head?_dropWhile (h : (cs.dropWhile isWhiteSpace).head? = some c) :
    isWhiteSpace c = false := by
  have hnot := List.head?_dropWhile_not isWhiteSpace cs
  rw [h] at hnot
  exact hnot

/-- A trimmed text does not end with white space. -/
theorem not_isWhiteSpace_getLast?_trim (h : (trim cs).getLast? = some c) :
    isWhiteSpace c = false := by
  rw [trim, trimRight, List.getLast?_reverse] at h
  exact not_isWhiteSpace_head?_dropWhile h

/-- A trimmed text does not start with white space. -/
theorem not_isWhiteSpace_head?_trim (h : (trim cs).head? = some c) : isWhiteSpace c = false := by
  have hprefix : trim cs <+: trimLeft cs := by
    rw [trim, trimRight, ← List.reverse_suffix, List.reverse_reverse]
    exact List.dropWhile_suffix _
  obtain ⟨rest, hrest⟩ := hprefix
  have hhead : (trimLeft cs).head? = some c := by
    rw [← hrest, List.head?_append, h]
    rfl
  exact not_isWhiteSpace_head?_dropWhile hhead

/-- Nothing is dropped from a text that does not start with a character of the class. -/
theorem dropWhile_eq_self_of_head? {p : Char → Bool} (h : ∀ c, cs.head? = some c → p c = false) :
    cs.dropWhile p = cs := by
  cases cs with
  | nil => rfl
  | cons c cs => rw [List.dropWhile_cons, h c rfl, if_neg (by decide)]

/-- A text without white space at its ends is trimmed. -/
theorem trim_eq_self (hfirst : ∀ c, cs.head? = some c → isWhiteSpace c = false)
    (hlast : ∀ c, cs.getLast? = some c → isWhiteSpace c = false) : trim cs = cs := by
  rw [trim, trimLeft, dropWhile_eq_self_of_head? hfirst, trimRight,
    dropWhile_eq_self_of_head? (by simpa using hlast), List.reverse_reverse]

/-- Trimming twice is trimming once. -/
@[simp] theorem trim_trim (cs : List Char) : trim (trim cs) = trim cs :=
  trim_eq_self (fun _ => not_isWhiteSpace_head?_trim) fun _ => not_isWhiteSpace_getLast?_trim

/-- White space at the end of a text does not change what is left of it. -/
theorem trimRight_append {after : List Char} (hafter : ∀ c ∈ after, isWhiteSpace c = true) :
    trimRight (cs ++ after) = trimRight cs := by
  rw [trimRight, List.reverse_append, List.dropWhile_append_of_pos (by simpa using hafter), trimRight]

/-- White space around a text does not change what trimming leaves of it. -/
theorem trim_pad {before after : List Char} (hbefore : ∀ c ∈ before, isWhiteSpace c = true)
    (hafter : ∀ c ∈ after, isWhiteSpace c = true) : trim (before ++ (cs ++ after)) = trim cs := by
  obtain ⟨run, rest, rfl, hrun, hrest⟩ := exists_run isWhiteSpace cs
  have hleft : trimLeft (run ++ rest) = rest := dropWhile_run hrun hrest
  rw [trim, trim, hleft, trimLeft, List.dropWhile_append_of_pos hbefore, List.append_assoc,
    List.dropWhile_append_of_pos hrun]
  cases rest with
  | nil => rw [List.nil_append, List.dropWhile_eq_nil_iff.2 hafter]
  | cons c rest => rw [dropWhile_eq_self_of_head? (by simpa using hrest), trimRight_append hafter]

/-- A text is its trimmed text with white space around it. -/
theorem exists_trim (cs : List Char) : ∃ before after, cs = before ++ (trim cs ++ after) ∧
    (∀ c ∈ before, isWhiteSpace c = true) ∧ ∀ c ∈ after, isWhiteSpace c = true := by
  obtain ⟨before, rest, rfl, hbefore, hrest⟩ := exists_run isWhiteSpace cs
  obtain ⟨after, kept, hkept, hafter, hlast⟩ := exists_run isWhiteSpace rest.reverse
  have hrest' : rest = kept.reverse ++ after.reverse := by
    rw [← List.reverse_append, ← hkept, List.reverse_reverse]
  have htrim : trim (before ++ rest) = kept.reverse := by
    rw [trim, trimLeft, dropWhile_run hbefore hrest, trimRight, hkept, dropWhile_run hafter hlast]
  exact ⟨before, after.reverse, by rw [htrim, hrest'], hbefore, by simpa using hafter⟩

/-- What is no white space at the end of a text stays there. -/
theorem getLast?_trim (h : cs.getLast? = some c) (hc : isWhiteSpace c = false) :
    (trim cs).getLast? = some c := by
  -- The white space that trimming takes away at the end is none: the text ends with another
  -- character. The same holds of the white space in front, if nothing else were left.
  obtain ⟨before, after, heq, hbefore, hafter⟩ := exists_trim cs
  have hnot {front back : List Char} (hcs : cs = front ++ back)
      (hback : ∀ d ∈ back, isWhiteSpace d = true) : back = [] := by
    by_contra hne
    rw [hcs, List.getLast?_append_of_ne_nil front hne] at h
    simp [hback c (List.mem_of_getLast? h)] at hc
  obtain rfl : after = [] := hnot (heq.trans (List.append_assoc ..).symm) hafter
  rw [List.append_nil] at heq
  have hne : trim cs ≠ [] := by
    intro hempty
    rw [hempty, List.append_nil] at heq
    obtain rfl : before = [] := hnot (heq.trans (List.nil_append _).symm) hbefore
    simp [heq] at h
  rw [← h]
  conv_rhs => rw [heq]
  rw [List.getLast?_append_of_ne_nil before hne]

end Stencil.Text
