import Stencil.Text.CharClass
import Stencil.Text.DecimalDigit
import Mathlib.Data.List.Chain

/-!
# Decimal digits are no letters

A number may be written with the decimal digits of any script, an identifier with the letters of any
script and the ASCII digits. The lexer decides between a number and a name by the first character, and
which it finds must not depend on the order of its questions: no character is both a decimal digit and
a letter (`isAlphabetic_of_isDecimalDigit`).

Both classes are tables of intervals of code points, hundreds of them, and comparing each with each
would be slow. The tables are ascending, so one walk along both shows that they have nothing in
common: `Interval.apart` is that walk, `Interval.apart_sound` what its answer means, and only the walk
itself is evaluated. `isIdentifierPart_of_isDecimalDigit` is what is used of it: a decimal digit that
is not an ASCII digit ends an identifier, and `isBlank_of_isDecimalDigit` that it is not skipped.

**What it does not establish.** The tables are taken as they are; that they list the digits and
letters of a version of Unicode is not shown.
-/

namespace Stencil.Text

/-! ## Two tables -/

namespace Interval

/-- The first interval is not empty and ends before the second one starts. -/
def Before (i j : Interval) : Prop := i.1 ≤ i.2 ∧ i.2 < j.1

instance (i j : Interval) : Decidable (Before i j) := inferInstanceAs (Decidable (_ ∧ _))

instance : Trans Before Before Before where
  trans {i j k} hij hjk := ⟨hij.1, by have := hij.2; have := hjk.1; have := hjk.2; omega⟩

/-- Passes over the intervals that end before `i` starts. The next one must start behind `i`, and `rest`
must hold from there on. -/
def passes (i : Interval) (rest : List Interval → Bool) : List Interval → Bool
  | [] => true
  | j :: js => if j.2 < i.1 then passes i rest js else i.2 < j.1 && rest (j :: js)

/-- Whether no interval of one ascending table meets one of the other. -/
def apart : List Interval → List Interval → Bool
  | [], _ => true
  | i :: is, js => passes i (apart is) js

variable {i j : Interval} {is js : List Interval} {rest : List Interval → Bool} {n : Nat}

/-- The walk passes the intervals that end before the interval, and goes on behind it with the next
one. -/
theorem exists_of_passes (h : passes i rest js = true) :
    ∃ passed behind, js = passed ++ behind ∧ (∀ j ∈ passed, j.2 < i.1) ∧
      (∀ j, behind.head? = some j → i.2 < j.1) ∧ (behind ≠ [] → rest behind = true) := by
  induction js with
  | nil => exact ⟨[], [], rfl, nofun, nofun, fun hne => absurd rfl hne⟩
  | cons j js ih =>
    rw [passes] at h
    split at h
    · next hj =>
      obtain ⟨passed, behind, rfl, hpassed, hbehind⟩ := ih h
      exact ⟨j :: passed, behind, rfl, List.forall_mem_cons.2 ⟨hj, hpassed⟩, hbehind⟩
    · obtain ⟨hj, hrest⟩ := Bool.and_eq_true_iff.1 h
      refine ⟨[], j :: js, rfl, nofun, ?_, fun _ => hrest⟩
      rintro _ ⟨⟩
      exact of_decide_eq_true hj

/-- Two ascending tables that the walk finds apart have no code point in common. -/
theorem apart_sound (his : is.Pairwise Before) (hjs : js.Pairwise Before) (h : apart is js = true) :
    ∀ i ∈ is, ∀ j ∈ js, i.2 < j.1 ∨ j.2 < i.1 := by
  -- What is passed lies in front of the interval. What the walk stops at lies behind it, and all that
  -- follows lies further behind, as the table is ascending.
  induction is generalizing js with
  | nil => exact nofun
  | cons i is ih =>
    obtain ⟨hi, his⟩ := List.pairwise_cons.1 his
    obtain ⟨passed, behind, rfl, hpassed, hbehind, hrest⟩ := exists_of_passes h
    have hbehinds : ∀ j ∈ behind, i.2 < j.1 := by
      cases behind with
      | nil => exact nofun
      | cons first behind =>
        have hfirst := hbehind first rfl
        refine List.forall_mem_cons.2 ⟨hfirst, fun j hj => ?_⟩
        have hlater := (List.pairwise_cons.1 (List.pairwise_append.1 hjs).2.1).1 j hj
        exact hfirst.trans (Nat.lt_of_le_of_lt hlater.1 hlater.2)
    intro i' hi' j hj
    rcases List.mem_cons.1 hi' with rfl | hi' <;> rcases List.mem_append.1 hj with hj | hj
    · exact .inr (hpassed j hj)
    · exact .inl (hbehinds j hj)
    · have hlater := hi i' hi'
      have hj' := hpassed j hj
      exact .inr (hj'.trans (Nat.lt_of_le_of_lt hlater.1 hlater.2))
    · exact ih his (List.pairwise_append.1 hjs).2.1 (hrest (List.ne_nil_of_mem hj)) i' hi' j hj

/-- A code point of one table is not in the other. -/
theorem any_contains_eq_false (his : is.Pairwise Before) (hjs : js.Pairwise Before)
    (h : apart is js = true) (hn : is.any (contains n) = true) : js.any (contains n) = false := by
  obtain ⟨i, hi, hin⟩ := List.any_eq_true.1 hn
  rw [List.any_eq_false]
  intro j hj hjn
  have hij := apart_sound his hjs h i hi j hj
  simp only [contains, Bool.and_eq_true, decide_eq_true_eq] at hin hjn
  omega

end Interval

/-! ## The two classes -/

/-- The table of decimal digits is ascending. -/
theorem pairwise_decimalDigitIntervals : decimalDigitIntervals.Pairwise Interval.Before :=
  List.isChain_iff_pairwise.1 (by decide +kernel)

/-- The table of letters is ascending. -/
theorem pairwise_alphabeticIntervals : alphabeticIntervals.Pairwise Interval.Before :=
  List.isChain_iff_pairwise.1 (by decide +kernel)

variable {c : Char}

/-- No decimal digit is a letter. -/
theorem isAlphabetic_of_isDecimalDigit (h : isDecimalDigit c = true) : isAlphabetic c = false :=
  Interval.any_contains_eq_false pairwise_decimalDigitIntervals pairwise_alphabeticIntervals
    (by decide +kernel) h

/-- A decimal digit that is no ASCII digit is no ASCII character. -/
theorem isDigit_or_of_isDecimalDigit (h : isDecimalDigit c = true) :
    c.isDigit = true ∨ 0x80 ≤ c.toNat := by
  have hall : decimalDigitIntervals.all (fun i =>
      (0x30 ≤ i.1 && i.2 ≤ 0x39) || 0x80 ≤ i.1) = true := by decide +kernel
  obtain ⟨i, hi, hin⟩ := List.any_eq_true.1 h
  have hi' := List.all_eq_true.1 hall i hi
  simp only [Interval.contains, Bool.and_eq_true, Bool.or_eq_true, decide_eq_true_eq] at hin hi'
  by_cases hhigh : 0x80 ≤ c.toNat
  · exact .inr hhigh
  · refine .inl (Bool.and_eq_true_iff.2 ⟨decide_eq_true ?_, decide_eq_true ?_⟩)
    · exact UInt32.le_iff_toNat_le.2 (show 48 ≤ c.toNat by omega)
    · exact UInt32.le_iff_toNat_le.2 (show c.toNat ≤ 57 by omega)

/-- The ASCII digits are decimal digits. -/
theorem isDecimalDigit_of_isDigit (h : c.isDigit = true) : isDecimalDigit c = true := by
  simp only [Char.isDigit, Bool.and_eq_true, decide_eq_true_eq] at h
  refine List.any_eq_true.2 ⟨(0x30, 0x39), List.mem_cons_self, ?_⟩
  simp only [Interval.contains, Bool.and_eq_true, decide_eq_true_eq]
  exact ⟨UInt32.le_iff_toNat_le.1 h.1, UInt32.le_iff_toNat_le.1 h.2⟩

/-- A character beyond ASCII is none of the ASCII characters. -/
theorem ne_of_ascii {d : Char} (hc : 0x80 ≤ c.toNat) (hd : d.toNat < 0x80) : c ≠ d := by
  rintro rfl
  omega

/-- A decimal digit is not skipped between tokens. -/
theorem isBlank_of_isDecimalDigit (h : isDecimalDigit c = true) : isBlank c = false := by
  rw [Bool.eq_false_iff]
  intro hblank
  simp only [isBlank, Bool.or_eq_true, beq_iff_eq] at hblank
  rcases hblank with ((((((rfl | rfl) | rfl) | rfl) | rfl) | rfl) | rfl) <;> revert h <;> decide +kernel

/-- No identifier has a decimal digit of another script in it. -/
theorem isIdentifierPart_of_isDecimalDigit (h : isDecimalDigit c = true) (hc : 0x80 ≤ c.toNat) :
    isIdentifierPart c = false := by
  have hletter : isLetter c = false := by
    rw [Bool.eq_false_iff]
    intro hletter
    rcases Bool.or_eq_true_iff.1 hletter with hupper | hlower
    · have hle : c.toNat ≤ 90 := UInt32.le_iff_toNat_le.1 (of_decide_eq_true hupper).2
      omega
    · have hle : c.toNat ≤ 122 :=
        UInt32.le_iff_toNat_le.1 (of_decide_eq_true (Bool.and_eq_true_iff.1 hlower).2)
      omega
  have hdigit : isDigit c = false := by
    rw [Bool.eq_false_iff]
    intro hdigit
    have hle : c.toNat ≤ 57 :=
      UInt32.le_iff_toNat_le.1 (of_decide_eq_true (Bool.and_eq_true_iff.1 hdigit).2)
    omega
  simp [isIdentifierPart, isIdentifierStart, hletter, hdigit, isAlphabetic_of_isDecimalDigit h,
    ne_of_ascii hc]

end Stencil.Text
