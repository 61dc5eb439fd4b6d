import Stencil.Text.Search
import Mathlib.Data.List.Basic

/-!
# Splitting a text

Paths are split at slashes, class names at full stops, declarations at commas and sources at line
feeds. All of them are `splitOnChar` with another separator.

A text that is put together around a separator is split there into the pieces of its two sides
(`splitOnChar_append_sep`), and a text without separator is one piece (`splitOnChar_of_not_mem`). By
these two equations a text is split again into what it was joined of. There is always a piece, and no
piece has a separator in it (`not_mem_of_mem_splitOnChar`), so the pieces can be joined again and
nothing is lost.

For texts that are joined with a comma and looked up by a part without comma, `exists_of_intercalate`
finds the joined piece that the part lies in.

**What it does not establish.** A piece may be empty: two separators in a row, and a separator at an
end, make one. Whether an empty piece counts is for the reader of the pieces to say.
-/

namespace Stencil.Text

variable {c : Char} {cs : List Char}

/-- There is always a piece, be it an empty one. -/
theorem splitOnChar_ne_nil (c : Char) (cs : List Char) : splitOnChar c cs ≠ [] := by
  cases cs with
  | nil => simp [splitOnChar]
  | cons d cs =>
    rw [splitOnChar]
    split
    · simp
    · split <;> simp

/-- A character that is no separator goes to the first piece. -/
theorem splitOnChar_cons_of_ne {d : Char} (h : d ≠ c) (cs : List Char) :
    splitOnChar c (d :: cs) =
      (d :: (splitOnChar c cs).headD []) :: (splitOnChar c cs).tail := by
  rw [splitOnChar, if_neg h]
  cases hsplit : splitOnChar c cs with
  | nil => exact absurd hsplit (splitOnChar_ne_nil c cs)
  | cons piece pieces => rfl

/-- A text with a separator in it is split there. -/
theorem splitOnChar_append_sep (c : Char) (as bs : List Char) :
    splitOnChar c (as ++ c :: bs) = splitOnChar c as ++ splitOnChar c bs := by
  induction as with
  | nil => simp [splitOnChar]
  | cons a as ih =>
    by_cases ha : a = c
    · simp [splitOnChar, ha, ih]
    · obtain ⟨piece, pieces, hsplit⟩ := List.exists_cons_of_ne_nil (splitOnChar_ne_nil c as)
      rw [List.cons_append, splitOnChar_cons_of_ne ha, splitOnChar_cons_of_ne ha, ih, hsplit]
      rfl

/-- A text without separator is its only piece. -/
theorem splitOnChar_of_not_mem (h : c ∉ cs) : splitOnChar c cs = [cs] := by
  induction cs with
  | nil => rfl
  | cons d cs ih =>
    rw [List.mem_cons, not_or] at h
    rw [splitOnChar_cons_of_ne (Ne.symm h.1), ih h.2]
    rfl

/-- The pieces have no separator in them. -/
theorem not_mem_of_mem_splitOnChar {piece : List Char} (h : piece ∈ splitOnChar c cs) : c ∉ piece := by
  -- Behind a separator a new piece begins; any other character is put in front of the first piece.
  induction cs generalizing piece with
  | nil =>
    obtain rfl := List.mem_singleton.1 h
    exact List.not_mem_nil
  | cons d cs ih =>
    by_cases hd : d = c
    · rw [splitOnChar, if_pos hd] at h
      rcases List.mem_cons.1 h with rfl | h
      · exact List.not_mem_nil
      · exact ih h
    · obtain ⟨first, more, hsplit⟩ := List.exists_cons_of_ne_nil (splitOnChar_ne_nil c cs)
      rw [splitOnChar_cons_of_ne hd, hsplit] at h
      rw [hsplit] at ih
      rcases List.mem_cons.1 h with rfl | h
      · rw [List.headD_cons, List.mem_cons, not_or]
        exact ⟨Ne.symm hd, ih List.mem_cons_self⟩
      · exact ih (List.mem_cons_of_mem _ h)

/-- What no comma keeps apart is in one of the pieces that commas keep apart. -/
theorem exists_of_intercalate {p : List Char → Prop} {pieces : List (List Char)} (hnil : ¬ p [])
    (happend : ∀ cs ds, p (cs ++ ',' :: ds) → p cs ∨ p ds) (h : p ([','].intercalate pieces)) :
    ∃ piece ∈ pieces, p piece := by
  induction pieces with
  | nil => exact absurd h hnil
  | cons piece pieces ih =>
    cases pieces with
    | nil => exact ⟨piece, List.mem_cons_self, by rwa [List.intercalate_singleton] at h⟩
    | cons next pieces =>
      rw [List.intercalate_cons_cons, List.append_assoc, List.singleton_append] at h
      rcases happend piece _ h with h | h
      · exact ⟨piece, List.mem_cons_self, h⟩
      · obtain ⟨found, hfound, h⟩ := ih h
        exact ⟨found, List.mem_cons_of_mem piece hfound, h⟩

end Stencil.Text
