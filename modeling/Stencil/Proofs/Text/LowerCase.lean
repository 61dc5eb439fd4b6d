import Stencil.Text.Naming

/-!
# Lower case in ASCII

Attribute names are compared in two ways: the lookup of attributes folds ASCII letters only, the kind
of an attribute is told from the lower-case form by Unicode, in which one character may become two and
the form of a sigma depends on what stands around it. The argument about attribute names needs both to
agree.

**The law** (`lower_of_ascii`): on a text of ASCII characters the lower-case form is the one letter by
letter. And a text that folds to an ASCII text is one itself (`toNat_lt_of_toLower`), so a name that
is an ASCII name but for the case of its letters has the lower-case form of that
(`lowerString_of_sameIgnoringCase`).

What is not a letter is left alone by folding: `eq_of_toLower` and `mem_of_mem_map_toLower` find a
delimiter in a text from its folded form, `utf8Size_toLower` keeps offsets, and `map_class_eq` the
classes of the characters. So a search that ignores case stops where it would stop in the folded text.

**What it does not establish.** Nothing is said of the lower-case form of texts beyond ASCII.
-/

namespace Stencil.Text

/-- A character whose lower-case form is an ASCII character is one. -/
theorem toNat_lt_of_toLower {c : Char} (h : c.toLower.toNat < 0x80) : c.toNat < 0x80 := by
  unfold Char.toLower at h
  split at h
  · next hupper =>
    have hle : c.toNat ≤ 90 := UInt32.le_iff_toNat_le.1 hupper.2
    omega
  · exact h

/-- A character that is no letter in lower case is not the lower-case form of another one. -/
theorem eq_of_toLower {c d : Char} (h : c.toLower = d) (hd : d.isLower = false) : c = d := by
  -- Only a capital letter changes, and what it changes to is a small letter.
  unfold Char.toLower at h
  split at h
  · next hupper =>
    exfalso
    have hlow : 65 ≤ c.val.toNat := UInt32.le_iff_toNat_le.1 hupper.1
    have hhigh : c.val.toNat ≤ 90 := UInt32.le_iff_toNat_le.1 hupper.2
    have hval : (c.val + 32).toNat = c.val.toNat + 32 := by
      rw [UInt32.toNat_add, show (32 : UInt32).toNat = 32 from rfl]
      omega
    have hletter : d.isLower = true := by
      rw [← h]
      refine Bool.and_eq_true_iff.2 ⟨decide_eq_true ?_, decide_eq_true ?_⟩
      · show (97 : UInt32) ≤ c.val + 32
        rw [UInt32.le_iff_toNat_le, hval]
        exact Nat.add_le_add_right hlow 32
      · show c.val + 32 ≤ (122 : UInt32)
        rw [UInt32.le_iff_toNat_le, hval]
        exact Nat.add_le_add_right hhigh 32
    simp [hletter] at hd
  · exact h

/-- In lower case, a character is as it was or 32 code points further on. -/
theorem eq_or_of_toLower {d : Char} (h : c.toLower = d) : c = d ∨ c.val + 32 = d.val := by
  unfold Char.toLower at h
  split at h
  · exact .inr (congrArg Char.val h)
  · exact .inl h

/-- A character that is no small letter is in a text if it is in its lower-case form. -/
theorem mem_of_mem_map_toLower {d : Char} {cs : List Char} (h : d ∈ cs.map Char.toLower)
    (hd : d.isLower = false) : d ∈ cs := by
  obtain ⟨c, hc, hcd⟩ := List.mem_map.1 h
  exact eq_of_toLower hcd hd ▸ hc

/-- An ASCII character stays one in lower case. -/
theorem toNat_toLower_lt {c : Char} (h : c.toNat < 0x80) : c.toLower.toNat < 0x80 := by
  have hclass : ∀ n < 0x80, (Char.ofNat n).toLower.toNat < 0x80 := by decide
  simpa only [Char.ofNat_toNat] using hclass c.toNat h

/-- What is in lower case stays as it is. -/
theorem toLower_toLower {c : Char} (h : c.toNat < 0x80) : c.toLower.toLower = c.toLower := by
  have hclass : ∀ n < 0x80, (Char.ofNat n).toLower.toLower = (Char.ofNat n).toLower := by decide
  simpa only [Char.ofNat_toNat] using hclass c.toNat h

/-- The lower-case form takes as many bytes, so offsets into a text are offsets into its lower-case
form. -/
theorem utf8Size_toLower (c : Char) : c.toLower.utf8Size = c.utf8Size := by
  unfold Char.toLower
  split
  · next hupper =>
    -- both are in ASCII
    have hlow : c.val.toNat ≤ 90 := UInt32.le_iff_toNat_le.1 hupper.2
    have hval : (c.val + 32).toNat = c.val.toNat + 32 := by
      rw [UInt32.toNat_add, show (32 : UInt32).toNat = 32 from rfl]
      omega
    rw [Char.utf8Size, Char.utf8Size, if_pos, if_pos]
    · exact UInt32.le_iff_toNat_le.2 (Nat.le_trans hlow (by decide))
    · show c.val + 32 ≤ _
      rw [UInt32.le_iff_toNat_le, hval]
      exact Nat.le_trans (Nat.add_le_add_right hlow 32) (by decide)
  · rfl

/-- A class that all letters are of does not tell a character from its lower-case form. -/
theorem class_toLower {p : Char → Bool} (hp : ∀ c, c.isAlpha = true → p c = true) (c : Char) :
    p c.toLower = p c := by
  cases hlower : c.toLower.isLower with
  | false => rw [← eq_of_toLower rfl hlower]
  | true =>
    have halpha : c.isAlpha = true := by
      unfold Char.toLower at hlower
      split at hlower
      · next hupper => exact Bool.or_eq_true_iff.2 (.inl (decide_eq_true hupper))
      · exact Bool.or_eq_true_iff.2 (.inr hlower)
    rw [hp c halpha, hp c.toLower (Bool.or_eq_true_iff.2 (.inr hlower))]

/-- Where two texts differ in the case of their letters only, their characters are of the same classes. -/
theorem map_class_eq {p : Char → Bool} (hp : ∀ c, c.isAlpha = true → p c = true)
    {cs ds : List Char} (h : sameIgnoringCase (String.ofList cs) (String.ofList ds) = true) :
    cs.map p = ds.map p := by
  have hlower : cs.map Char.toLower = ds.map Char.toLower := by
    simpa [sameIgnoringCase] using h
  have hclass (cs : List Char) : (cs.map Char.toLower).map p = cs.map p := by
    rw [List.map_map]
    exact List.map_congr_left fun c _ => class_toLower hp c
  rw [← hclass cs, hlower, hclass ds]

/-- On ASCII texts the lower-case form is the one letter by letter. -/
theorem lower_of_ascii {cs : List Char} (h : ∀ c ∈ cs, c.toNat < 0x80) :
    lower cs = cs.map Char.toLower := by
  -- The two characters whose lower-case form is special, the sigma and the dotted capital i, are not
  -- ASCII.
  have hbetween (before : List Char) (c : Char) (after : List Char) (hc : c.toNat < 0x80) :
      lowerBetween before c after = [c.toLower] := by
    have hsigma : c ≠ 'Σ' := by
      rintro rfl
      exact absurd hc (by decide)
    have hdotted : c ≠ 'İ' := by
      rintro rfl
      exact absurd hc (by decide)
    rw [lowerBetween, if_neg hsigma, if_neg hdotted, lowerChar, if_pos hc]
  have hfrom (before : List Char) : lowerFrom before cs = cs.map Char.toLower := by
    induction cs generalizing before with
    | nil => rfl
    | cons c cs ih =>
      rw [lowerFrom, hbetween before c cs (h c (by simp)),
        ih (fun d hd => h d (List.mem_cons_of_mem _ hd)), List.map_cons, List.singleton_append]
  exact hfrom []

/-- A name that is an ASCII name but for the case of its letters has the lower-case form of that. -/
theorem lowerString_of_sameIgnoringCase {a b : String}
    (hb : b.toList.all (·.toLower.toNat < 0x80) = true) (h : sameIgnoringCase a b = true) :
    lowerString a = String.ofList (b.toList.map Char.toLower) := by
  have heq : a.toList.map Char.toLower = b.toList.map Char.toLower := beq_iff_eq.1 h
  have hascii : ∀ c ∈ a.toList, c.toNat < 0x80 := by
    intro c hc
    have hmem : c.toLower ∈ b.toList.map Char.toLower := heq ▸ List.mem_map_of_mem hc
    obtain ⟨d, hd, hcd⟩ := List.mem_map.1 hmem
    exact toNat_lt_of_toLower (hcd ▸ of_decide_eq_true (List.all_eq_true.1 hb d hd))
  rw [lowerString, lower_of_ascii hascii, heq]

end Stencil.Text
