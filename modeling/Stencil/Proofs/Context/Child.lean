import Stencil.Context.Child
import Stencil.Proofs.Text.LowerCase

/-!
# Which component a tag stands for

A child component is entered under its tag in lower case and under the kebab-case form of its tag.
Each entry replaces the one that was there.

**The law** (`ChildTable.component?_addAll`): a component that was made usable answers to its tag, in
any case of its letters, if and only if no component that was added later has that tag as its
kebab-case form; and it answers to its own kebab-case form if no other component has that form. So of
`foo-bar` and `fooBar`, which are different tags, the second one takes the tag of the first if it is
added later (`exists_tag_taken`); added earlier, both can be reached (`component?_todo_item`).

It is shown of the table first: the component that was entered under a key last counts
(`find?_addAll`), and so a component keeps a key if no later one is entered under it. The rest is
about names of ASCII characters: the kebab-case form is in lower case
(`IsAscii.lowerAscii_kebabCase`), and hyphens are all that is put in (`mem_of_mem_hyphenate`).

**What it does not establish.** Two components whose tags differ in the case of letters only are
excluded (`Distinct`), and so are names beyond ASCII, whose case may change their length.
-/

namespace Stencil

/-! ## Spellings of ASCII names -/

namespace Text

variable {name other : String} {cs : List Char} {c : Char}

/-- A name of ASCII characters. -/
def IsAscii (name : String) : Prop := ∀ c ∈ name.toList, c.toNat < 0x80

instance (name : String) : Decidable (IsAscii name) := List.decidableBAll _ name.toList

/-- Hyphens are all that is put in. -/
theorem mem_of_mem_hyphenate (h : c ∈ hyphenate cs) : c = '-' ∨ c ∈ cs := by
  induction cs with
  | nil => exact .inr h
  | cons first cs ih =>
    cases cs with
    | nil => exact .inr h
    | cons second cs =>
      rw [hyphenate] at h
      have hrest : c ∈ hyphenate (second :: cs) → c = '-' ∨ c ∈ first :: second :: cs :=
        fun hmem => (ih hmem).imp_right (List.mem_cons_of_mem first)
      split at h
      · rcases List.mem_cons.1 h with rfl | h
        · exact .inr List.mem_cons_self
        · rcases List.mem_cons.1 h with rfl | h
          · exact .inl rfl
          · exact hrest h
      · rcases List.mem_cons.1 h with rfl | h
        · exact .inr List.mem_cons_self
        · exact hrest h

/-- The kebab-case form of an ASCII name, letter by letter. -/
theorem IsAscii.kebabCase_eq (h : IsAscii name) :
    kebabCase name = String.ofList ((hyphenate name.toList).map Char.toLower) := by
  rw [kebabCase, lower_of_ascii]
  intro c hc
  rcases mem_of_mem_hyphenate hc with rfl | hc
  · decide
  · exact h c hc

/-- The kebab-case form of an ASCII name is one. -/
theorem IsAscii.kebabCase (h : IsAscii name) : IsAscii (kebabCase name) := by
  intro c hc
  rw [h.kebabCase_eq, String.toList_ofList] at hc
  obtain ⟨d, hd, rfl⟩ := List.mem_map.1 hc
  rcases mem_of_mem_hyphenate hd with rfl | hd
  · decide
  · exact toNat_toLower_lt (h d hd)

/-- Names are the same but for their case if they are the same in lower case. -/
theorem sameIgnoringCase_iff : sameIgnoringCase name other = true ↔ lowerAscii name = lowerAscii other := by
  rw [lowerAscii, lowerAscii, sameIgnoringCase, beq_iff_eq, String.ofList_inj]

/-- Names differ in more than their case if they differ in lower case. -/
theorem sameIgnoringCase_eq_false :
    sameIgnoringCase name other = false ↔ lowerAscii name ≠ lowerAscii other := by
  rw [← Bool.not_eq_true, sameIgnoringCase_iff]

/-- The kebab-case form is in lower case. -/
theorem IsAscii.lowerAscii_kebabCase (h : IsAscii name) :
    lowerAscii (Text.kebabCase name) = Text.kebabCase name := by
  rw [h.kebabCase_eq, lowerAscii, String.toList_ofList, List.map_map]
  refine congrArg String.ofList (List.map_congr_left fun c hc => ?_)
  rcases mem_of_mem_hyphenate hc with rfl | hc
  · decide
  · exact toLower_toLower (h c hc)

/-- A spelling of an ASCII name in any case has the lower-case form of the name. -/
theorem IsAscii.lowerString_eq (h : IsAscii name) (hsame : sameIgnoringCase other name = true) :
    lowerString other = lowerAscii name := by
  refine lowerString_of_sameIgnoringCase (List.all_eq_true.2 fun c hc => ?_) hsame
  exact decide_eq_true (toNat_toLower_lt (h c hc))

theorem sameIgnoringCase_refl (name : String) : sameIgnoringCase name name = true :=
  beq_self_eq_true _

end Text

/-! ## The table -/

/-- What a component is entered under: its kebab-case form and its tag. -/
def ChildComponent.keys (c : ChildComponent) : List String :=
  [Text.kebabCase c.tagName, Text.lowerString c.tagName]

namespace ChildTable

variable {components before after : List ChildComponent} {c d : ChildComponent} {key : String}

/-- Makes the components usable, one after the other. -/
def addAll (t : ChildTable) (components : List ChildComponent) : ChildTable := components.foldl add t

/-- A component is entered under its keys, and nothing else changes. -/
theorem find?_add (t : ChildTable) (c : ChildComponent) (key : String) :
    (t.add c).find? key = if key ∈ c.keys then some c else t.find? key := by
  unfold add ChildComponent.keys
  by_cases hsame : Text.kebabCase c.tagName = Text.lowerString c.tagName
  · simp [hsame]
  · by_cases hlower : key = Text.lowerString c.tagName
    · simp [hlower]
    · simp [hsame, hlower]

/-- The component that was entered under a key last counts, and replaces what was there. -/
theorem find?_addAll (t : ChildTable) (components : List ChildComponent) (key : String) :
    (t.addAll components).find? key =
      (components.filter fun c => key ∈ c.keys).getLast?.or (t.find? key) := by
  induction components generalizing t with
  | nil => rfl
  | cons c components ih =>
    refine (ih (t.add c)).trans ?_
    rw [find?_add, List.filter_cons]
    by_cases hkey : key ∈ c.keys
    · rw [if_pos hkey, if_pos (decide_eq_true hkey), List.getLast?_cons]
      cases (components.filter fun c => key ∈ c.keys).getLast? <;> rfl
    · rw [if_neg hkey, if_neg (by simpa using hkey)]

/-- A component keeps a key that it was entered under if no later one is entered under it. -/
theorem find?_addAll_eq_some_iff (t : ChildTable) (hkey : key ∈ c.keys) (hc : c ∉ after) :
    (t.addAll (before ++ c :: after)).find? key = some c ↔ ∀ d ∈ after, key ∉ d.keys := by
  have hfind : (t.addAll (before ++ c :: after)).find? key =
      some ((after.filter fun d => key ∈ d.keys).getLast?.getD c) := by
    rw [find?_addAll, List.filter_append, List.filter_cons, if_pos (decide_eq_true hkey),
      List.getLast?_append, List.getLast?_cons]
    rfl
  rw [hfind, Option.some_inj]
  constructor
  · intro hlast d hd hkey'
    have hmem : d ∈ after.filter fun d => key ∈ d.keys :=
      List.mem_filter.2 ⟨hd, decide_eq_true hkey'⟩
    rw [List.getLast?_eq_some_getLast (List.ne_nil_of_mem hmem), Option.getD_some] at hlast
    exact hc (List.mem_filter.1 (hlast ▸ List.getLast_mem (List.ne_nil_of_mem hmem))).1
  · intro hfree
    have hnone : (after.filter fun d => key ∈ d.keys) = [] :=
      List.filter_eq_nil_iff.2 fun d hd => by simpa using hfree d hd
    rw [hnone]
    rfl

/-- Components with ASCII tags, no two of which are the same but for the case of letters. -/
structure Distinct (components : List ChildComponent) : Prop where
  ascii : ∀ c ∈ components, Text.IsAscii c.tagName
  apart : components.Pairwise fun c d => Text.sameIgnoringCase c.tagName d.tagName = false

/-- What holds of a component and those behind it. -/
theorem Distinct.of_append_cons (h : Distinct (before ++ c :: after)) :
    Text.IsAscii c.tagName ∧ (∀ d ∈ after, Text.IsAscii d.tagName) ∧
      ∀ d ∈ after, Text.sameIgnoringCase c.tagName d.tagName = false := by
  have hall : ∀ d ∈ c :: after, Text.IsAscii d.tagName := fun d hd =>
    h.ascii d (List.mem_append_right before hd)
  rw [List.forall_mem_cons] at hall
  exact ⟨hall.1, hall.2, (List.pairwise_cons.1 (List.pairwise_append.1 h.apart).2.1).1⟩

/-- A component that was made usable answers to its tag, in any case of its letters, if and only if no
component that was made usable later has that tag as its kebab-case form; and to its own kebab-case form
if no other component has that form, be it as its tag or as the form of its tag. -/
theorem component?_addAll (before : List ChildComponent) (c : ChildComponent)
    (after : List ChildComponent) (h : Distinct (before ++ c :: after)) (t : ChildTable) :
    (∀ name, Text.sameIgnoringCase name c.tagName = true →
      ((t.addAll (before ++ c :: after)).component? name = some c ↔
        ∀ d ∈ after, Text.sameIgnoringCase (Text.kebabCase d.tagName) c.tagName = false)) ∧
    ((∀ d ∈ before ++ after,
        Text.sameIgnoringCase d.tagName (Text.kebabCase c.tagName) = false ∧
          Text.kebabCase d.tagName ≠ Text.kebabCase c.tagName) →
      ∀ name, Text.sameIgnoringCase name (Text.kebabCase c.tagName) = true →
        (t.addAll (before ++ c :: after)).component? name = some c) := by
  obtain ⟨hc, hafter, hapart⟩ := h.of_append_cons
  have hlower : Text.lowerString c.tagName = Text.lowerAscii c.tagName :=
    hc.lowerString_eq (Text.sameIgnoringCase_refl _)
  have hnew : c ∉ after := fun hmem => by
    have := hapart c hmem
    rw [Text.sameIgnoringCase_refl] at this
    cases this
  have hfree (d : ChildComponent) (hd : d ∈ after) (key : String) : key ∉ d.keys ↔
      key ≠ Text.kebabCase d.tagName ∧ key ≠ Text.lowerAscii d.tagName := by
    rw [ChildComponent.keys, (hafter d hd).lowerString_eq (Text.sameIgnoringCase_refl _)]
    simp
  constructor
  · intro name hname
    have hkey : Text.lowerAscii c.tagName ∈ c.keys := by simp [ChildComponent.keys, hlower]
    rw [component?, hc.lowerString_eq hname, find?_addAll_eq_some_iff t hkey hnew]
    refine forall₂_congr fun d hd => ?_
    rw [hfree d hd, Text.sameIgnoringCase_eq_false, (hafter d hd).lowerAscii_kebabCase,
      and_iff_left (Text.sameIgnoringCase_eq_false.1 (hapart d hd)), ne_comm]
  · intro hother name hname
    have hkey : Text.kebabCase c.tagName ∈ c.keys := by simp [ChildComponent.keys]
    rw [component?, hc.kebabCase.lowerString_eq hname, hc.lowerAscii_kebabCase,
      find?_addAll_eq_some_iff t hkey hnew]
    intro d hd
    obtain ⟨htag, hform⟩ := hother d (List.mem_append_right before hd)
    rw [Text.sameIgnoringCase_eq_false, hc.lowerAscii_kebabCase] at htag
    exact (hfree d hd _).2 ⟨hform.symm, htag.symm⟩

/-- A component that is called what another one is called in kebab case is added after it, and both can
be reached; a third one can be reached by its kebab-case form. -/
theorem component?_todo_item :
    let components : List ChildComponent :=
      [⟨"todoItem", [], true⟩, ⟨"todo-item", [], false⟩, ⟨"navBar", [], true⟩]
    Distinct components ∧
      (addAll .empty components).component? "TODOITEM" = some ⟨"todoItem", [], true⟩ ∧
      (addAll .empty components).component? "Todo-Item" = some ⟨"todo-item", [], false⟩ ∧
      (addAll .empty components).component? "nav-BAR" = some ⟨"navBar", [], true⟩ := by
  intro components
  have hdistinct : Distinct components := ⟨by decide, by decide⟩
  have hfirst := component?_addAll [] _ _ hdistinct .empty
  have hsecond := component?_addAll [_] _ _ hdistinct .empty
  have hthird := component?_addAll [_, _] _ _ hdistinct .empty
  refine ⟨hdistinct, ?_, ?_, ?_⟩
  · exact (hfirst.1 "TODOITEM" (by decide)).2 (by decide)
  · exact (hsecond.1 "Todo-Item" (by decide)).2 (by decide)
  · exact hthird.2 (by decide) "nav-BAR" (by decide)

/-- Added the other way round, the component that is called by the form cannot be reached any more. -/
theorem exists_tag_taken :
    let components : List ChildComponent := [⟨"todo-item", [], false⟩, ⟨"todoItem", [], true⟩]
    Distinct components ∧
      (addAll .empty components).component? "todo-item" = some ⟨"todoItem", [], true⟩ :=
  ⟨⟨by decide, by decide⟩, by decide⟩

end ChildTable

end Stencil
