import Mathlib.Data.List.Infix
import Mathlib.Data.List.Nodup

/-!
# Lists and answers

Facts that know nothing of templates. Steps that may fail are put together with `>>=`, and
`bind_eq_ok` takes such a chain apart from its success; every soundness proof of a reader starts with
it. A run that is evaluated shows its answer as an option, and `eq_ok_of_toOption` leads back.

The others are about lists. What a walk leaves is filtered out of what it visits, and
`exists_split_of_filterMap` finds the visit behind the `k`-th value left. What is said of one element
among many is found again by a key that tells elements apart: `filter_flatMap_of_nodup`. Names that are
taken once are told by `eraseDups_filter`, first mentions by `forall_split_cons`.
-/

namespace Stencil

/-! ## Answers -/

/-- A step that succeeds as a whole succeeds at first. -/
theorem bind_eq_ok {ε α β : Type} {x : Except ε α} {f : α → Except ε β} {b : β} :
    (x >>= f) = .ok b ↔ ∃ a, x = .ok a ∧ f a = .ok b := by
  cases x with
  | error e => exact ⟨nofun, fun ⟨_, h, _⟩ => nomatch h⟩
  | ok a => exact ⟨fun h => ⟨a, rfl, h⟩, fun ⟨_, h, h'⟩ => Except.ok.inj h ▸ h'⟩

/-- An answer that has a value is that value. -/
theorem eq_ok_of_toOption {ε α : Type} {answer : Except ε α} {a : α}
    (h : answer.toOption = some a) : answer = .ok a := by
  cases answer with
  | error error => cases h
  | ok b => exact congrArg Except.ok (Option.some.inj h)

/-! ## Lists -/

section

variable {α β γ : Type}

/-- What is behind the head of a rest of a list is a rest of it too. -/
theorem suffix_of_cons {a : α} {as whole : List α} (h : a :: as <:+ whole) : as <:+ whole :=
  (List.suffix_cons a as).trans h

/-- A value behind the others adds what it is mapped to, if anything. -/
theorem filterMap_concat (f : α → Option β) (as : List α) (a : α) :
    (as ++ [a]).filterMap f = as.filterMap f ++ (f a).toList := by
  rw [List.filterMap_append]
  cases h : f a <;> simp [h]

/-- Where the value at an index of a filtered list comes from. -/
theorem exists_split_of_filterMap (f : α → Option β) (as : List α) (k : Nat) (b : β)
    (h : (as.filterMap f)[k]? = some b) :
    ∃ front a back, as = front ++ a :: back ∧ f a = some b ∧ (front.filterMap f).length = k := by
  -- Only an element that is mapped to something takes an index of the filtered list.
  induction as generalizing k with
  | nil => simp at h
  | cons a as ih =>
    rw [List.filterMap_cons] at h
    cases ha : f a with
    | none =>
      rw [ha] at h
      obtain ⟨front, a', back, rfl, hb, hk⟩ := ih k h
      exact ⟨a :: front, a', back, rfl, hb, by rw [List.filterMap_cons_none ha, hk]⟩
    | some b' =>
      rw [ha] at h
      cases k with
      | zero =>
        obtain rfl : b' = b := by simpa using h
        exact ⟨[], a, as, rfl, ha, rfl⟩
      | succ k =>
        obtain ⟨front, a', back, rfl, hb, hk⟩ := ih k (by simpa using h)
        exact ⟨a :: front, a', back, rfl, hb, by
          rw [List.filterMap_cons_some ha, List.length_cons, hk]⟩

/-- If all that an element gives has the mark of the element, and no two elements have the same mark,
then what has the mark of an element was given by it. -/
theorem filter_flatMap_of_nodup [BEq γ] [LawfulBEq γ] {f : α → List β} {key : β → γ} {mark : α → γ}
    {as : List α} {a : α} (hmark : ∀ a, ∀ b ∈ f a, key b = mark a) (hnodup : (as.map mark).Nodup)
    (ha : a ∈ as) : (as.flatMap f).filter (fun b => key b == mark a) = f a := by
  have hown (a' : α) (hsame : mark a' = mark a) : (f a').filter (fun b => key b == mark a) = f a' :=
    List.filter_eq_self.2 fun b hb => by rw [hmark a' b hb, hsame, beq_self_eq_true]
  have hother (a' : α) (hne : mark a' ≠ mark a) : (f a').filter (fun b => key b == mark a) = [] :=
    List.filter_eq_nil_iff.2 fun b hb => by rw [hmark a' b hb, beq_iff_eq]; exact hne
  induction as with
  | nil => cases ha
  | cons first as ih =>
    obtain ⟨hfirst, hrest⟩ := List.nodup_cons.1 hnodup
    rw [List.flatMap_cons, List.filter_append]
    rcases List.mem_cons.1 ha with rfl | ha
    · have hnone : (as.flatMap f).filter (fun b => key b == mark a) = [] := by
        rw [List.filter_flatMap]
        refine List.flatMap_eq_nil_iff.2 fun a' ha' => hother a' fun hsame => hfirst ?_
        exact List.mem_map.2 ⟨a', ha', hsame⟩
      rw [hown a rfl, hnone, List.append_nil]
    · have hne : mark first ≠ mark a := fun hsame => hfirst (List.mem_map.2 ⟨a, ha, hsame.symm⟩)
      rw [hother first hne, List.nil_append, ih hrest ha]

/-- Taking repeated values out and filtering can change places. -/
theorem eraseDups_filter [DecidableEq α] (p : α → Bool) (as : List α) :
    (as.filter p).eraseDups = as.eraseDups.filter p := by
  induction as generalizing p with
  | nil => rfl
  | cons a as ih =>
    rw [List.eraseDups_cons, ih, List.filter_cons]
    by_cases ha : p a = true
    · rw [if_pos ha, List.filter_cons_of_pos ha, List.eraseDups_cons, List.filter_filter, ih,
        List.filter_filter]
      simp only [Bool.and_comm]
    · -- what goes out with the filter cannot be what `a` takes out
      rw [if_neg ha, List.filter_cons_of_neg ha, ih, List.filter_filter]
      refine List.filter_congr fun b _ => ?_
      by_cases hb : b = a
      · simp [hb, ha]
      · simp [hb]

/-- A property of the values of a list and of what stands in front of them. -/
theorem forall_split_cons {P : List α → α → Prop} {first : α} {as : List α} :
    (∀ init a rest, first :: as = init ++ a :: rest → P init a) ↔
      P [] first ∧ ∀ init a rest, as = init ++ a :: rest → P (first :: init) a := by
  constructor
  · intro h
    exact ⟨h [] first as rfl, fun init a rest heq => h (first :: init) a rest (by simp [heq])⟩
  · rintro ⟨hfirst, hrest⟩ (_ | ⟨head, init⟩) a rest heq
    · obtain ⟨rfl, rfl⟩ := List.cons.inj heq
      exact hfirst
    · obtain ⟨rfl, rfl⟩ := List.cons.inj heq
      exact hrest init a rest rfl

end

/-! ## Texts -/

/-- A text starts with what its front starts with. -/
theorem Text.head?_append {s t : String} {c : Char} (h : s.toList.head? = some c) :
    (s ++ t).toList.head? = some c := by
  rw [String.toList_append, List.head?_append, h, Option.some_or]

/-- Written out as a list of characters, a text shows its first one. -/
theorem Text.head?_ofList {s : String} {c : Char} (h : ∃ cs, s = String.ofList (c :: cs)) :
    s.toList.head? = some c := by
  obtain ⟨cs, rfl⟩ := h
  rw [String.toList_ofList, List.head?_cons]

end Stencil
