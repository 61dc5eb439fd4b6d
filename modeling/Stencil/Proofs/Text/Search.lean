import Stencil.Text.Search
import Mathlib.Data.List.Infix

/-!
# Where a search stops

`cutAt` goes through a text and stops at the first occurrence of its mark: the end of a comment, of a
raw body, of a region. Later arguments change the text behind the mark, or in front of it, and want to
know that the cut stays where it is.

**The law** (`cutAt_eq_some`): what is cut off is known by two things. The text is put together of it,
the mark and the rest; and the mark does not occur earlier, not even with its last character on the
place where it was found. The rest of the text is not mentioned, so it may be exchanged. Conversely
`not_infix_of_cutAt` and `not_prefix_drop_of_cutAt` say what a cut that was made tells of the text in
front of it, and `cutAt_eq_none` that a search without success means that there is no mark.

Whether a mark may lie across the place where two texts meet depends on the characters of the mark.
`cutAt_append` and `cutAt_append_concat` take the cases that occur: the first character of the mark,
or its last one, does not recur in it. `exists_run` and `span_append` say the same for runs of
characters of a class, which end before the first character of another one.

**What it does not establish.** Nothing is said of later occurrences of a mark.
-/

namespace Stencil.Text

variable {mark before after cs : List Char}

/-- Nothing is cut off from a text without the mark. -/
theorem cutAt_eq_none (hne : mark ≠ []) : cutAt mark cs = none ↔ ¬ mark <:+: cs := by
  induction cs with
  | nil => simp [cutAt, hne]
  | cons c cs ih =>
    rw [cutAt, List.infix_cons_iff]
    by_cases hmark : mark <+: c :: cs
    · simp [hmark]
    · simp [hmark, ih]

/-- The mark that was found is the first one: it does not occur before its last character. -/
theorem not_infix_of_cutAt (hne : mark ≠ []) (h : cutAt mark cs = some (before, after)) :
    ¬ mark <:+: before ++ mark.dropLast := by
  induction cs generalizing before with
  | nil => simp [cutAt, hne] at h
  | cons c cs ih =>
    have hall := eq_of_cutAt h
    rw [cutAt] at h
    split at h
    · obtain ⟨rfl, -⟩ : [] = before ∧ (c :: cs).drop mark.length = after := by simpa using h
      intro hin
      have hlength := hin.length_le
      have hpos := List.length_pos_iff.2 hne
      rw [List.nil_append, List.length_dropLast] at hlength
      omega
    · next hmark =>
      obtain ⟨⟨b, a⟩, hb, he⟩ := Option.map_eq_some_iff.1 h
      obtain ⟨rfl, rfl⟩ : c :: b = before ∧ a = after := by simpa using he
      rw [List.cons_append, List.infix_cons_iff]
      rintro (hin | hin)
      · -- the mark at the front would have been found
        apply hmark
        rw [List.isPrefixOf_iff_prefix, hall]
        refine hin.trans ?_
        rw [List.append_assoc, List.cons_append]
        refine (List.cons_prefix_cons.2 ⟨rfl, (List.prefix_append_right_inj b).2 ?_⟩)
        exact (List.dropLast_prefix mark).trans (List.prefix_append mark a)
      · exact ih hb hin

/-- A text is cut at the first occurrence of the mark, whatever follows it. -/
theorem cutAt_eq_some (hne : mark ≠ []) : cutAt mark cs = some (before, after) ↔
    cs = before ++ mark ++ after ∧ ¬ mark <:+: before ++ mark.dropLast := by
  constructor
  · intro h
    exact ⟨eq_of_cutAt h, not_infix_of_cutAt hne h⟩
  · rintro ⟨rfl, hfirst⟩
    cases h : cutAt mark (before ++ mark ++ after) with
    | none => exact absurd ⟨before, after, rfl⟩ ((cutAt_eq_none hne).1 h)
    | some found =>
      obtain ⟨b, a⟩ := found
      have hall := eq_of_cutAt h
      have hfound := not_infix_of_cutAt hne h
      have hpos := List.length_pos_iff.2 hne
      -- of two first occurrences none comes before the other
      have hle {b a before after : List Char} (heq : b ++ mark ++ a = before ++ mark ++ after)
          (hfirst : ¬ mark <:+: before ++ mark.dropLast) : before.length ≤ b.length := by
        by_contra hlt
        apply hfirst
        have hmark : b ++ mark <+: before ++ mark.dropLast := by
          have hin : b ++ mark <+: before ++ mark ++ after := ⟨a, heq⟩
          have hin' : before ++ mark.dropLast <+: before ++ mark ++ after := by
            rw [List.append_assoc, List.prefix_append_right_inj]
            exact (List.dropLast_prefix mark).trans (List.prefix_append mark after)
          refine List.prefix_of_prefix_length_le hin hin' ?_
          rw [List.length_append, List.length_append, List.length_dropLast]
          omega
        exact (List.suffix_append b mark).isInfix.trans hmark.isInfix
      have hlength : b.length = before.length :=
        Nat.le_antisymm (hle hall hfound) (hle hall.symm hfirst)
      rw [List.append_assoc, List.append_assoc] at hall
      obtain ⟨rfl, htail⟩ := List.append_inj hall.symm hlength
      rw [List.append_cancel_left htail]

/-- A text is cut at the first occurrence of the character. -/
theorem cutAtChar_eq_some {c : Char} :
    cutAtChar c cs = some (before, after) ↔ cs = before ++ c :: after ∧ c ∉ before := by
  rw [cutAtChar, cutAt_eq_some (List.cons_ne_nil c []), List.append_assoc, List.singleton_append,
    List.dropLast_singleton, List.append_nil, List.singleton_infix_iff]

/-- In front of the place where the mark is found, it starts nowhere. -/
theorem not_prefix_drop_of_cutAt (h : cutAt mark cs = some (before, after)) :
    ∀ n < before.length, ¬ mark <+: cs.drop n := by
  -- The search goes on behind each character at which the mark does not start.
  induction cs generalizing before with
  | nil =>
    obtain rfl : [] = before := by
      cases mark <;> simp_all [cutAt]
    exact fun n hn => absurd hn (Nat.not_lt_zero n)
  | cons c cs ih =>
    rw [cutAt] at h
    split at h
    · obtain ⟨rfl, -⟩ : [] = before ∧ (c :: cs).drop mark.length = after := by simpa using h
      exact fun n hn => absurd hn (Nat.not_lt_zero n)
    · next hmark =>
      obtain ⟨⟨b, a⟩, hb, he⟩ := Option.map_eq_some_iff.1 h
      obtain ⟨rfl, rfl⟩ : c :: b = before ∧ a = after := by simpa using he
      intro n hn
      cases n with
      | zero => exact fun hstarts => hmark (List.isPrefixOf_iff_prefix.2 hstarts)
      | succ n => exact ih hb n (Nat.lt_of_succ_lt_succ hn)

/-- A mark whose first character does not recur in it is found where it is put, behind a text without
the mark: an earlier occurrence would reach into it. -/
theorem cutAt_append {m : Char} {ms : List Char} (hm : m ∉ ms) (h : ¬ m :: ms <:+: before) :
    cutAt (m :: ms) (before ++ m :: ms ++ after) = some (before, after) := by
  refine (cutAt_eq_some (List.cons_ne_nil m ms)).2 ⟨rfl, ?_⟩
  rintro ⟨left, right, heq⟩
  have hlength := congrArg List.length heq
  simp only [List.length_append, List.length_cons, List.length_dropLast] at hlength
  obtain ⟨reach, rfl⟩ : left <+: before :=
    List.prefix_of_prefix_length_le ⟨m :: ms ++ right, by rw [← heq, List.append_assoc]⟩
      (List.prefix_append before _) (by omega)
  rw [List.append_assoc, List.append_assoc, List.append_cancel_left_eq] at heq
  rcases List.append_eq_append_iff.1 heq with ⟨inner, rfl, -⟩ | ⟨front, hreach, htail⟩
  · exact h ⟨left, inner, by rw [List.append_assoc]⟩
  · cases front with
    | nil =>
      rw [List.append_nil] at hreach
      exact h ⟨left, [], by rw [hreach, List.append_nil]⟩
    | cons d front =>
      -- the end of the mark is where the mark starts
      obtain rfl : m = d := by
        cases ms with
        | nil => simp at htail
        | cons e ms => exact (List.cons.inj htail).1
      cases reach with
      | nil =>
        simp only [List.length_append, List.length_nil] at hlength
        omega
      | cons r reach =>
        obtain ⟨-, rfl⟩ := List.cons.inj hreach
        exact hm (by simp)

/-- A mark whose last character is not in a text does not reach into that text from the front. -/
theorem infix_of_infix_append {m : Char} {ms : List Char} (hm : m ∉ after)
    (h : ms ++ [m] <:+: before ++ after) : ms ++ [m] <:+: before := by
  obtain ⟨left, right, heq⟩ := h
  rcases List.append_eq_append_iff.1 heq with ⟨inner, rfl, -⟩ | ⟨reach, hreach, rfl⟩
  · exact ⟨left, inner, rfl⟩
  · rcases List.eq_nil_or_concat reach with rfl | ⟨reach, d, rfl⟩
    · rw [List.append_nil] at hreach
      exact ⟨left, [], by rw [hreach, List.append_nil]⟩
    · -- the last character of the mark is in the text
      rw [List.concat_eq_append, ← List.append_assoc, ← List.append_assoc] at hreach
      obtain rfl : m = d := List.cons.inj (List.append_inj_right' hreach rfl) |>.1
      exact absurd (by simp) hm

/-- A mark whose last character does not recur in it is found where it is put, behind a text without
the mark. -/
theorem cutAt_append_concat {m : Char} {ms : List Char} (hm : m ∉ ms) (h : ¬ ms ++ [m] <:+: before) :
    cutAt (ms ++ [m]) (before ++ (ms ++ [m]) ++ after) = some (before, after) := by
  refine (cutAt_eq_some (by simp)).2 ⟨rfl, fun hin => h ?_⟩
  rw [List.dropLast_concat] at hin
  exact infix_of_infix_append hm hin

/-- A mark is on one side of a character that is none of its own. -/
theorem infix_append_cons {c : Char} (hc : c ∉ mark) :
    mark <:+: before ++ c :: after ↔ mark <:+: before ∨ mark <:+: after := by
  constructor
  · intro h
    induction before with
    | nil =>
      rw [List.nil_append, List.infix_cons_iff] at h
      rcases h with h | h
      · cases mark with
        | nil => exact .inl List.nil_infix
        | cons m ms =>
          obtain ⟨rfl, -⟩ := List.cons_prefix_cons.1 h
          exact absurd List.mem_cons_self hc
      · exact .inr h
    | cons d before ih =>
      rw [List.cons_append, List.infix_cons_iff] at h
      rcases h with h | h
      · left
        rcases List.prefix_or_prefix_of_prefix h (List.prefix_append (d :: before) (c :: after))
          with hin | ⟨t, rfl⟩
        · exact hin.isInfix
        · cases t with
          | nil => simp
          | cons e t =>
            -- the mark would reach over the character
            obtain ⟨rfl, -⟩ : e = c ∧ _ :=
              List.cons_prefix_cons.1 ((List.prefix_append_right_inj (d :: before)).1 h)
            exact absurd (by simp) hc
      · rcases ih h with h | h
        · exact .inl (h.trans (List.suffix_cons d before).isInfix)
        · exact .inr h
  · rintro (h | h)
    · exact h.trans (List.prefix_append before (c :: after)).isInfix
    · exact h.trans ((List.suffix_cons c after).trans (List.suffix_append before _)).isInfix

/-- A mark does not start in a text that has none of its characters. -/
theorem infix_append_of_disjoint (hne : mark ≠ []) (h : ∀ c ∈ before, c ∉ mark) :
    mark <:+: before ++ after ↔ mark <:+: after := by
  induction before with
  | nil => rfl
  | cons c before ih =>
    have hmark : ¬ mark <+: c :: (before ++ after) := by
      obtain ⟨m, ms, rfl⟩ := List.exists_cons_of_ne_nil hne
      intro hin
      obtain ⟨rfl, -⟩ := List.cons_prefix_cons.1 hin
      exact h m (by simp) (by simp)
    rw [List.cons_append, List.infix_cons_iff, or_iff_right hmark]
    exact ih fun d hd => h d (List.mem_cons_of_mem c hd)

/-! ## Runs of characters -/

section

variable {p : Char → Bool} {run rest : List Char}

/-- A run of characters of a class ends before the first character that is not of the class. -/
theorem takeWhile_run (hrun : ∀ c ∈ run, p c = true) (hrest : ∀ c, rest.head? = some c → p c = false) :
    (run ++ rest).takeWhile p = run := by
  rw [List.takeWhile_append_of_pos hrun]
  cases rest with
  | nil => simp
  | cons c rest => simp [hrest c rfl]

/-- What is left behind a run. -/
theorem dropWhile_run (hrun : ∀ c ∈ run, p c = true) (hrest : ∀ c, rest.head? = some c → p c = false) :
    (run ++ rest).dropWhile p = rest := by
  rw [List.dropWhile_append_of_pos hrun]
  cases rest with
  | nil => simp
  | cons c rest => simp [hrest c rfl]

/-- The run at the front of a text, and what ends it. -/
theorem exists_run (p : Char → Bool) (cs : List Char) :
    ∃ run rest, cs = run ++ rest ∧ (∀ c ∈ run, p c = true) ∧
      ∀ c, rest.head? = some c → p c = false := by
  refine ⟨cs.takeWhile p, cs.dropWhile p, List.takeWhile_append_dropWhile.symm, ?_, ?_⟩
  · intro c hc
    exact List.all_eq_true.1 List.all_takeWhile c hc
  · intro c hc
    have hhead := List.head?_dropWhile_not p cs
    rw [hc] at hhead
    exact hhead

/-- A run at the front of a text is the run of a longer text too, if what is put behind does not go on
with it. -/
theorem span_append {cs tail : List Char}
    (htail : cs.dropWhile p = [] → ∀ d, tail.head? = some d → p d = false) :
    (cs ++ tail).takeWhile p = cs.takeWhile p ∧ (cs ++ tail).dropWhile p = cs.dropWhile p ++ tail := by
  induction cs with
  | nil =>
    cases tail with
    | nil => exact ⟨rfl, rfl⟩
    | cons d tail => simp [htail rfl d rfl]
  | cons c cs ih => by_cases hc : p c = true <;> simp_all

end

end Stencil.Text
