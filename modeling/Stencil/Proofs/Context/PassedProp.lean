import Stencil.Binding
import Stencil.Proofs.Context.Child
import Mathlib.Data.List.Nodup

/-!
# Which prop an attribute passes

A prop has the name of an attribute, and is passed by an attribute that spells this name: as it is or
behind one of the marks of a bound attribute, in any case of its letters (`DeclaredProp.SpelledBy`).
The component looks for the first of its props that fits, and strips one mark at most.

**The law** (`WellNamed.propOf?_eq_some_iff`): if the names of a component tell its props apart, and
none looks as if it had a mark itself (`WellNamed`), then the prop that is found for an attribute is
exactly the one that the attribute spells. Such an attribute is also never passed over, as loop
definitions and two-way bindings are (`WellNamed.ofName_of_spelledBy`).

The marks are taken off by `dropMark`; a text without a mark is what is left of itself and of what it
makes with a mark in front, and of nothing else (`dropMark_eq_iff`). Lower case commutes with marks
(`lowerString_mark`), as names of props are ASCII.

**What it does not establish.** Without the conditions of `WellNamed` an attribute can be taken for
another prop; what happens then is not described.
-/

namespace Stencil

/-! ## Marks -/

namespace ChildComponent

variable {mark text rest : String} {marks : List String}

/-- The marks of a bound attribute. -/
theorem mem_bindMarks : mark ∈ bindMarks ↔ mark = "v-bind:" ∨ mark = ":" := by
  simp [bindMarks]

/-- A text with a mark in front is the name of a bound attribute, whatever it binds. -/
theorem ofLower_mark (h : mark ∈ bindMarks) (text : String) :
    AttributeKind.ofLower (mark ++ text) = .propertyBinding := by
  have hne (name : String) (hname : ¬ mark.toList <+: name.toList) : mark ++ text ≠ name := by
    rintro rfl
    apply hname
    rw [String.toList_append]
    exact List.prefix_append _ _
  unfold AttributeKind.ofLower
  rcases mem_bindMarks.1 h with rfl | rfl
  · simp [hne "v-for" (by decide), hne "v-model" (by decide)]
  · simp [hne "v-for" (by decide), hne "v-model" (by decide)]

/-- A mark in front is taken off. -/
theorem dropMark_cons_self (mark text : String) (marks : List String) :
    dropMark (mark ++ text) (mark :: marks) = text := by
  rw [dropMark, String.toList_append, if_pos (List.isPrefixOf_iff_prefix.2 (List.prefix_append _ _)),
    ← String.length_toList, List.drop_left, String.ofList_toList]

/-- A mark that is not in front is not taken off. -/
theorem dropMark_cons_of_not (h : ¬ mark.toList <+: text.toList) (marks : List String) :
    dropMark text (mark :: marks) = dropMark text marks := by
  rw [dropMark, if_neg (by rwa [List.isPrefixOf_iff_prefix])]

/-- Without a mark in front nothing is taken off. -/
theorem dropMark_of_not (h : ∀ mark ∈ marks, ¬ mark.toList <+: text.toList) :
    dropMark text marks = text := by
  induction marks with
  | nil => rfl
  | cons mark marks ih =>
    obtain ⟨hmark, hmarks⟩ := List.forall_mem_cons.1 h
    rw [dropMark_cons_of_not hmark, ih hmarks]

/-- What is left when the mark is taken off. -/
theorem dropMark_mark (h : mark ∈ bindMarks) (text : String) :
    dropMark (mark ++ text) bindMarks = text := by
  rcases mem_bindMarks.1 h with rfl | rfl
  · exact dropMark_cons_self _ _ _
  · have hother : ¬ "v-bind:".toList <+: (":" ++ text).toList := by simp
    exact (dropMark_cons_of_not hother _).trans (dropMark_cons_self _ _ _)

/-- A text without a mark is what is left of itself and of what it makes with a mark in front. -/
theorem dropMark_eq_iff (h : ∀ mark ∈ bindMarks, ¬ mark.toList <+: rest.toList) :
    dropMark text bindMarks = rest ↔ ∃ mark ∈ "" :: bindMarks, text = mark ++ rest := by
  constructor
  · intro hrest
    by_cases hmark : ∃ mark ∈ bindMarks, mark.toList <+: text.toList
    · obtain ⟨mark, hmem, behind, hbehind⟩ := hmark
      have htext : text = mark ++ String.ofList behind := by
        rw [← String.toList_inj, String.toList_append, String.toList_ofList, hbehind]
      rw [htext, dropMark_mark hmem] at hrest
      exact ⟨mark, List.mem_cons_of_mem _ hmem, by rw [htext, hrest]⟩
    · rw [dropMark_of_not fun mark hmem hstarts => hmark ⟨mark, hmem, hstarts⟩] at hrest
      exact ⟨"", List.mem_cons_self, by rw [hrest, String.empty_append]⟩
  · rintro ⟨mark, hmem, rfl⟩
    rcases List.mem_cons.1 hmem with rfl | hmem
    · rw [String.empty_append, dropMark_of_not h]
    · exact dropMark_mark hmem rest

end ChildComponent

/-! ## Spellings of attribute names -/

/-- The name of an attribute spells that of the prop: as it is or bound, in any case of its letters. -/
def DeclaredProp.SpelledBy (p : DeclaredProp) (name : String) : Prop :=
  ∃ mark ∈ ["", ":", "v-bind:"], Text.lowerString name = Text.lowerString (mark ++ p.attributeName)

instance (p : DeclaredProp) (name : String) : Decidable (p.SpelledBy name) :=
  inferInstanceAs (Decidable (∃ mark ∈ ["", ":", "v-bind:"], _))

namespace ChildComponent

/-- The names of a component tell its props apart, and no attribute that has the name of a prop is a
loop definition, a two-way binding or bound. -/
structure WellNamed (c : ChildComponent) : Prop where
  names : (c.props.map (·.name)).Nodup
  ascii : ∀ p ∈ c.props, Text.IsAscii p.attributeName
  apart : c.props.Pairwise fun p q => Text.sameIgnoringCase p.attributeName q.attributeName = false
  ordinary : ∀ p ∈ c.props,
    AttributeKind.ofName p.attributeName ∉ [AttributeKind.loop, .model, .propertyBinding]

variable {c : ChildComponent} {p q : DeclaredProp} {name mark : String}

/-- The lower-case form of a name behind a mark. -/
theorem lowerString_mark (hmark : mark ∈ "" :: bindMarks) (h : Text.IsAscii name) :
    Text.lowerString (mark ++ name) = mark ++ Text.lowerString name := by
  obtain ⟨hascii, hlower⟩ : Text.IsAscii mark ∧ mark.toList.map Char.toLower = mark.toList := by
    rcases List.mem_cons.1 hmark with rfl | hmark
    · decide
    · rcases mem_bindMarks.1 hmark with rfl | rfl <;> decide
  have hall : Text.IsAscii (mark ++ name) := by
    intro c hc
    rw [String.toList_append, List.mem_append] at hc
    exact hc.elim (hascii c) (h c)
  rw [hall.lowerString_eq (Text.sameIgnoringCase_refl _), h.lowerString_eq (Text.sameIgnoringCase_refl _),
    Text.lowerAscii, Text.lowerAscii, String.toList_append, List.map_append, hlower, String.ofList_append,
    String.ofList_toList]

/-- The prop that is found has the name that is left of the attribute. -/
theorem lowerString_of_propOf? (h : c.propOf? name = some p) :
    Text.lowerString p.attributeName = dropMark (Text.lowerString name) bindMarks := by
  unfold propOf? at h
  have hfound := List.find?_some h
  exact beq_iff_eq.1 hfound

namespace WellNamed

/-- No prop looks as if it had a mark. -/
theorem not_mark (h : c.WellNamed) (hp : p ∈ c.props) :
    ∀ mark ∈ bindMarks, ¬ mark.toList <+: (Text.lowerString p.attributeName).toList := by
  rintro mark hmark ⟨behind, hbehind⟩
  have hname : Text.lowerString p.attributeName = mark ++ String.ofList behind := by
    rw [← String.toList_inj, String.toList_append, String.toList_ofList, hbehind]
  apply h.ordinary p hp
  rw [AttributeKind.ofName, hname, ofLower_mark hmark]
  decide

/-- An attribute spells a prop if its name without a mark is that of the prop, in lower case. -/
theorem spelledBy_iff (h : c.WellNamed) (hp : p ∈ c.props) : p.SpelledBy name ↔
    Text.lowerString p.attributeName = dropMark (Text.lowerString name) bindMarks := by
  have hmarks : ∀ mark, mark ∈ ["", ":", "v-bind:"] ↔ mark ∈ "" :: bindMarks := by
    intro mark
    simp [bindMarks, or_comm]
  rw [eq_comm, dropMark_eq_iff (h.not_mark hp)]
  refine exists_congr fun mark => ?_
  rw [hmarks]
  refine and_congr_right fun hmark => ?_
  rw [lowerString_mark hmark (h.ascii p hp)]

/-- Props with the same name in lower case are the same. -/
theorem eq_of_lowerString (h : c.WellNamed) (hp : p ∈ c.props) (hq : q ∈ c.props)
    (hsame : Text.lowerString p.attributeName = Text.lowerString q.attributeName) : p = q := by
  have hnodup : (c.props.map fun p => Text.lowerString p.attributeName).Nodup := by
    refine List.pairwise_map.2 (h.apart.imp_of_mem ?_)
    intro p q hp hq hapart
    rw [(h.ascii p hp).lowerString_eq (Text.sameIgnoringCase_refl _),
      (h.ascii q hq).lowerString_eq (Text.sameIgnoringCase_refl _)]
    exact Text.sameIgnoringCase_eq_false.1 hapart
  exact List.inj_on_of_nodup_map hnodup hp hq hsame

/-- The prop that an attribute passes is the one that its name spells. -/
theorem propOf?_eq_some_iff (h : c.WellNamed) (hp : p ∈ c.props) :
    c.propOf? name = some p ↔ p.SpelledBy name := by
  rw [h.spelledBy_iff hp]
  constructor
  · exact lowerString_of_propOf?
  · intro hname
    obtain ⟨q, hfind⟩ : ∃ q, c.propOf? name = some q :=
      Option.isSome_iff_exists.1 (List.find?_isSome.2 ⟨p, hp, beq_iff_eq.2 hname⟩)
    have hq := lowerString_of_propOf? hfind
    rw [hfind, h.eq_of_lowerString (List.mem_of_find?_eq_some hfind) hp (hq.trans hname.symm)]

/-- An attribute that spells the name of a prop is neither a loop definition nor a two-way binding. -/
theorem ofName_of_spelledBy (h : c.WellNamed) (hp : p ∈ c.props) (hspelled : p.SpelledBy name) :
    AttributeKind.ofName name ≠ .loop ∧ AttributeKind.ofName name ≠ .model := by
  obtain ⟨mark, hmark, hname⟩ :=
    (dropMark_eq_iff (h.not_mark hp)).1 ((h.spelledBy_iff hp).1 hspelled).symm
  rw [AttributeKind.ofName, hname]
  rcases List.mem_cons.1 hmark with rfl | hmark
  · have hordinary := h.ordinary p hp
    simp only [List.mem_cons, not_or] at hordinary
    rw [String.empty_append]
    exact ⟨hordinary.1, hordinary.2.1⟩
  · rw [ofLower_mark hmark]
    decide

end WellNamed

end ChildComponent

end Stencil
