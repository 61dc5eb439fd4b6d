import Stencil.Proofs.Compile.Template
import Stencil.Proofs.Markup.Reread

/-!
# Compiled templates are read as their sources

What the visits of a compile write are new texts for values of attributes and for insides of markers.

**The law** (`compileTemplate_outline`): when each of these keeps within its place, the compiled
template is read as the tree of its source with the new texts in it. Whether the values in that tree
are those that the visits show is then a matter of each text alone: that is so exactly if each text
decodes to what is shown (`Visit.ReadsBack`).

Keeping within its place (`Visit.Bounded`) is not to be had for nothing. Without quotes the call of an
expression with two parameters does not: its blank ends the value, and what is read is two attributes
(`unquoted_call_divided`). Between quotes it does, since the quote is escaped (`not_mem_escapeQuote`),
and reading undoes that when the text has no references of its own (`decodeReferences_escapeQuote`).

The visits of a compile are the new texts of the rereading: what they change is what their new texts
change in the forest (`Spread.mem_editsOf`, `Spread.perm_editsOf`), so the two edited sources are the
same.

**What it does not establish.** A template with import elements is excluded: taking one out may join
the texts on both sides of it.
-/

namespace Stencil

open Text (byteSize)
open Markup (Attribute Node NewTexts Tree)

/-! ## Which visit changes what -/

namespace Place

/-- The attribute whose value is at the place. -/
def attribute? : Place → Option Attribute
  | .loop _ a | .value _ a => some a
  | .marker .. => none

/-- The span of the inside of the marker at the place. -/
def inside? : Place → Option Span
  | .marker offset m => some (m.span offset)
  | .loop .. | .value .. => none

/-- A marker is not in an attribute. -/
theorem attribute?_of_inside? {place : Place} {span : Span} (h : place.inside? = some span) :
    place.attribute? = none := by
  cases place with
  | marker offset m => rfl
  | loop e a => cases h
  | value e a => cases h

end Place

namespace Visit

/-- The visit that changes a place of this kind. -/
def editor? (vs : List Visit) (isPlace : Place → Bool) : Option Visit :=
  vs.find? fun v => v.edit?.isSome && isPlace v.place

/-- What the visits show as the value of the attribute: what it was, unless one of them changes it. -/
def shownValue (vs : List Visit) (a : Attribute) : String :=
  ((editor? vs (·.attribute? == some a)).map (·.shown)).getD a.value

/-- What the visits write into a marker. -/
def shownInside (vs : List Visit) (span : Span) : Option (List Char) :=
  (editor? vs (·.inside? == some span)).map fun v => (" " ++ v.shown ++ " ").toList

/-- What the visits write. -/
def newTexts (vs : List Visit) : NewTexts where
  value a := (editor? vs (·.attribute? == some a)).map fun v => Compile.escapeQuote a.quote v.shown.toList
  inside := shownInside vs

/-- What the visit writes keeps within its place: there are no closing braces in it, it can stand without
quotes where there are none, and it starts no tag in a marker. -/
def Bounded (v : Visit) : Prop :=
  ∀ e, v.edit? = some e → ¬ ['\x7d', '\x7d'] <:+: e.text ∧
    (∀ a, v.place.attribute? = some a → a.quote = none → Markup.FitsQuote none e.text) ∧
    (v.place.attribute? = none → '<' ∉ e.text)

/-- What the visit writes as the value of an attribute decodes to what it shows. -/
def ReadsBack (v : Visit) : Prop :=
  ∀ e, v.edit? = some e → v.place.attribute?.isSome →
    Markup.decodeReferences e.text = v.shown.toList

section

variable {v : Visit} {e : Edit}

/-- What a visit of an attribute changes is its value, and what it writes there is escaped. -/
theorem edit_attribute {a : Attribute} (hedit : v.edit? = some e) (ha : v.place.attribute? = some a) :
    a.valueSpan = some e.span ∧ e.text = Compile.escapeQuote a.quote v.shown.toList := by
  have hvalue : valueEdit? a v.shown = some e := by
    unfold Place.attribute? at ha
    unfold edit? at hedit
    split at ha <;> simp_all
  refine ⟨(span_of_valueEdit? hvalue).1, ?_⟩
  unfold valueEdit? at hvalue
  split at hvalue
  · split at hvalue
    · cases hvalue
    · cases hvalue
      rfl
  · cases hvalue

/-- What a visit of a marker changes is its inside, and what it writes there has blanks around it. -/
theorem edit_inside {span : Span} (hedit : v.edit? = some e) (hspan : v.place.inside? = some span) :
    e = ⟨span, (" " ++ v.shown ++ " ").toList⟩ := by
  unfold Place.inside? at hspan
  unfold edit? at hedit
  split at hspan
  · next hplace =>
    rw [hplace] at hedit
    obtain rfl := Option.some.inj hspan
    dsimp only at hedit
    split at hedit
    · cases hedit
    · exact (Option.some.inj hedit).symm
  · cases hspan
  · cases hspan

variable {vs : List Visit} {isPlace : Place → Bool}

/-- The visit that changes a place is one of the visits, and changes something. -/
theorem editor?_eq_some (h : editor? vs isPlace = some v) :
    v ∈ vs ∧ (∃ e, v.edit? = some e) ∧ isPlace v.place = true := by
  have hfound := List.find?_some h
  rw [Bool.and_eq_true] at hfound
  exact ⟨List.mem_of_find?_eq_some h, Option.isSome_iff_exists.1 hfound.1, hfound.2⟩

/-- Each change of the visits changes something, and those of different visits are apart from each
other. -/
structure Spread (vs : List Visit) : Prop where
  proper : ∀ v ∈ vs, ∀ e, v.edit? = some e → e.span.start < e.span.stop
  apart : vs.Pairwise fun v w => ∀ e, v.edit? = some e → ∀ f, w.edit? = some f → e.span.Apart f.span

/-- No two visits change the same span. -/
theorem Spread.eq {w : Visit} {f : Edit} (h : Spread vs) (hv : v ∈ vs) (hw : w ∈ vs)
    (he : v.edit? = some e) (hf : w.edit? = some f) (hspan : e.span = f.span) : v = w := by
  have hsymm : Std.Symm fun v w : Visit =>
      ∀ e, v.edit? = some e → ∀ f, w.edit? = some f → e.span.Apart f.span :=
    ⟨fun _ _ h e he f hf => (h f hf e he).symm⟩
  by_contra hne
  have hlt := h.proper v hv e he
  have hapart := h.apart.forall hv hw hne e he f hf
  rw [← hspan] at hapart
  rcases hapart with hle | hle <;> omega

/-- The visit that changes a place is found. -/
theorem Spread.editor?_eq (h : Spread vs) (hv : v ∈ vs) (he : v.edit? = some e)
    (hplace : isPlace v.place = true)
    (hspan : ∀ (w : Visit) (f : Edit), w.edit? = some f → isPlace w.place = true → f.span = e.span) :
    editor? vs isPlace = some v := by
  cases hfound : editor? vs isPlace with
  | none =>
    have hnone := List.find?_eq_none.1 hfound v hv
    simp [he, hplace] at hnone
  | some w =>
    obtain ⟨hw, ⟨f, hf⟩, hplace'⟩ := editor?_eq_some hfound
    rw [h.eq hw hv hf he (hspan w f hf hplace')]

/-- The visit that changes an attribute is found by it. -/
theorem Spread.editor?_attribute {a : Attribute} (h : Spread vs) (hv : v ∈ vs)
    (he : v.edit? = some e) (ha : v.place.attribute? = some a) :
    editor? vs (·.attribute? == some a) = some v := by
  refine h.editor?_eq hv he (beq_iff_eq.2 ha) fun w f hf hw => ?_
  have hspan := (edit_attribute hf (beq_iff_eq.1 hw)).1
  rw [(edit_attribute he ha).1] at hspan
  exact (Option.some.inj hspan).symm

/-- The visit that changes a marker is found by its inside. -/
theorem Spread.editor?_inside {span : Span} (h : Spread vs) (hv : v ∈ vs) (he : v.edit? = some e)
    (hspan : v.place.inside? = some span) : editor? vs (·.inside? == some span) = some v := by
  refine h.editor?_eq hv he (beq_iff_eq.2 hspan) fun w f hf hw => ?_
  rw [edit_inside he hspan, edit_inside hf (beq_iff_eq.1 hw)]

end

/-! ## What is written keeps within its place -/

/-- A character that is replaced is gone, if it is not in the replacement. -/
theorem not_mem_replaceChar {c : Char} {replacement : List Char} (h : c ∉ replacement)
    (text : List Char) : c ∉ Text.replaceChar c replacement text := by
  rw [Text.replaceChar, List.mem_flatMap]
  rintro ⟨d, -, hc⟩
  split at hc
  · exact h hc
  · next hd => exact hd (List.mem_singleton.1 hc).symm

/-- An escaped text does not hold the quote that it is put between. -/
theorem not_mem_escapeQuote {q : Char} (hq : Text.isQuote q = true) (text : List Char) :
    q ∉ Compile.escapeQuote (some q) text := by
  have hcases : q = '\'' ∨ q = '"' := by simpa [Text.isQuote] using hq
  rcases hcases with rfl | rfl
  · exact not_mem_replaceChar (by decide) text
  · exact not_mem_replaceChar (by decide) text

/-- The blanks around the inside of a marker keep it apart from the braces. -/
theorem isInside_shown {shown : String} (h : ¬ ['\x7d', '\x7d'] <:+: (" " ++ shown ++ " ").toList) :
    Markup.IsInside (" " ++ shown ++ " ").toList := by
  rw [String.toList_append] at h ⊢
  rw [Markup.IsInside, List.append_assoc]
  show ¬ ['\x7d', '\x7d'] <:+: (" " ++ shown).toList ++ ' ' :: ['\x7d']
  rw [Text.infix_append_cons (by decide), not_or]
  exact ⟨fun hin => h (hin.trans (List.prefix_append _ _).isInfix), by decide⟩

/-- New texts that keep within their places fit into the tree. -/
theorem newTexts_fit {vs : List Visit} (h : ∀ v ∈ vs, v.Bounded) : (newTexts vs).Fit where
  quotes a t hvalue := by
    obtain ⟨v, hfound, rfl⟩ := Option.map_eq_some_iff.1 hvalue
    obtain ⟨hv, ⟨e, he⟩, ha⟩ := editor?_eq_some hfound
    have ha := beq_iff_eq.1 ha
    cases hquote : a.quote with
    | none =>
      have hfits := (h v hv e he).2.1 a ha hquote
      rwa [(edit_attribute he ha).2, hquote] at hfits
    | some q => exact fun hq => not_mem_escapeQuote hq _
  values a t hvalue := by
    obtain ⟨v, hfound, rfl⟩ := Option.map_eq_some_iff.1 hvalue
    obtain ⟨hv, ⟨e, he⟩, ha⟩ := editor?_eq_some hfound
    rw [← (edit_attribute he (beq_iff_eq.1 ha)).2]
    exact (h v hv e he).1
  insides span t hinside := by
    obtain ⟨v, hfound, rfl⟩ := Option.map_eq_some_iff.1 hinside
    obtain ⟨hv, ⟨e, he⟩, hspan⟩ := editor?_eq_some hfound
    have hbraces := (h v hv e he).1
    rw [edit_inside he (beq_iff_eq.1 hspan)] at hbraces
    exact isInside_shown hbraces
  tags span t hinside := by
    obtain ⟨v, hfound, rfl⟩ := Option.map_eq_some_iff.1 hinside
    obtain ⟨hv, ⟨e, he⟩, hspan⟩ := editor?_eq_some hfound
    have hspan := beq_iff_eq.1 hspan
    have htag := (h v hv e he).2.2 (Place.attribute?_of_inside? hspan)
    rwa [edit_inside he hspan] at htag

end Visit

/-! ## What is written is read again -/

section

variable {q : Char} {text : List Char}

/-- A character that starts no reference is read as it is. -/
theorem decodeReferences_cons {c : Char} (hc : c ≠ '&') (cs : List Char) :
    Markup.decodeReferences (c :: cs) = c :: Markup.decodeReferences cs := by
  rw [Markup.decodeReferences, Markup.decodeFrom, if_neg hc]
  rfl

/-- A reference is read as its character. -/
theorem decodeReferences_reference {name rest : List Char} {c : Char}
    (h : Markup.reference? (name ++ rest) = some (name.length, c)) :
    Markup.decodeReferences ('&' :: name ++ rest) = c :: Markup.decodeReferences rest := by
  have hskip (before : List Char) :
      Markup.decodeFrom before.length (before ++ rest) = Markup.decodeReferences rest := by
    induction before with
    | nil => rfl
    | cons d before ih => rw [List.cons_append, List.length_cons, Markup.decodeFrom, ih]
  rw [List.cons_append, Markup.decodeReferences, Markup.decodeFrom, if_pos rfl, h]
  exact congrArg (c :: ·) (hskip name)

/-- A text without ampersands is read as it is. -/
theorem decodeReferences_of_not_mem (h : '&' ∉ text) : Markup.decodeReferences text = text := by
  induction text with
  | nil => rfl
  | cons c text ih =>
    rw [List.mem_cons, not_or] at h
    rw [decodeReferences_cons (Ne.symm h.1), ih h.2]

/-- A character that is replaced by a reference to it is read again. -/
theorem decodeReferences_replaceChar {name : List Char}
    (hname : ∀ rest, Markup.reference? (name ++ rest) = some (name.length, q)) (h : '&' ∉ text) :
    Markup.decodeReferences (Text.replaceChar q ('&' :: name) text) = text := by
  induction text with
  | nil => rfl
  | cons c text ih =>
    rw [List.mem_cons, not_or] at h
    rw [Text.replaceChar] at ih ⊢
    rw [List.flatMap_cons]
    by_cases hc : c = q
    · rw [if_pos hc, decodeReferences_reference (hname _), ih h.2, hc]
    · rw [if_neg hc, List.singleton_append, decodeReferences_cons (Ne.symm h.1), ih h.2]

/-- Escaping is undone by reading, when the text has no references of its own. -/
theorem decodeReferences_escapeQuote (quote : Option Char) (h : '&' ∉ text) :
    Markup.decodeReferences (Compile.escapeQuote quote text) = text := by
  unfold Compile.escapeQuote
  split
  · have hname (rest : List Char) : Markup.reference? ("quot;".toList ++ rest) = some (5, '"') := rfl
    exact decodeReferences_replaceChar hname h
  · have hname (rest : List Char) : Markup.reference? ("#39;".toList ++ rest) = some (4, '\'') := rfl
    exact decodeReferences_replaceChar hname h
  · exact decodeReferences_of_not_mem h

-- References of the text's own are not escaped, so they are decoded too.
example : Markup.decodeReferences (Compile.escapeQuote (some '"') "\"&lt;".toList) = ['"', '<'] := by
  decide

/-- A visit that shows no ampersand reads back. -/
theorem Visit.readsBack_of_not_mem {v : Visit} (h : '&' ∉ v.shown.toList) : v.ReadsBack := by
  intro e he hattribute
  obtain ⟨a, ha⟩ := Option.isSome_iff_exists.1 hattribute
  rw [(edit_attribute he ha).2]
  exact decodeReferences_escapeQuote a.quote h

end

/-! ## The places of a forest are its attributes and markers -/

/-- The place is the value of one of the attributes, or a marker of one of the texts. -/
def Place.IsIn (attributes : List Attribute) (texts : List (String × Span)) : Place → Prop
  | .loop _ a | .value _ a => a ∈ attributes
  | .marker offset m => ∃ t ∈ texts, t.2.start = offset ∧ m ∈ Markup.markers t.1.toList

/-- A place among some attributes and texts is among more of them. -/
theorem Place.IsIn.mono {as bs : List Attribute} {ss ts : List (String × Span)} {place : Place}
    (h : place.IsIn as ss) (ha : as ⊆ bs) (ht : ss ⊆ ts) : place.IsIn bs ts := by
  cases place with
  | loop e a => exact ha h
  | value e a => exact ha h
  | marker offset m =>
    obtain ⟨t, hmem, hm⟩ := h
    exact ⟨t, ht hmem, hm⟩

section

variable {attributes : List Attribute} {texts : List (String × Span)} {place : Place}

/-- The attribute of a place is one of the attributes. -/
theorem Place.IsIn.attribute {a : Attribute} (h : place.IsIn attributes texts)
    (ha : place.attribute? = some a) : a ∈ attributes := by
  cases place with
  | loop e b => exact Option.some.inj ha ▸ h
  | value e b => exact Option.some.inj ha ▸ h
  | marker offset m => cases ha

/-- A place that is not in an attribute is a marker of one of the texts. -/
theorem Place.IsIn.inside (h : place.IsIn attributes texts) (hnone : place.attribute? = none) :
    ∃ t ∈ texts, ∃ m ∈ Markup.markers t.1.toList, place.inside? = some (m.span t.2.start) := by
  cases place with
  | loop e b => cases hnone
  | value e b => cases hnone
  | marker offset m =>
    obtain ⟨t, ht, rfl, hm⟩ := h
    exact ⟨t, ht, m, hm, rfl⟩

end

namespace Markup

/-- The texts among the nodes are texts of the forest. -/
theorem childTexts_subset (nodes : List Node) : childTexts nodes ⊆ textsOf nodes := by
  induction nodes with
  | nil => exact List.Subset.refl _
  | cons node nodes ih =>
    cases node with
    | text value span => exact List.cons_subset_cons _ ih
    | comment value span => exact ih
    | element e children => exact fun t ht => List.mem_append_right _ (ih ht)

/-- The places in the texts among the nodes. -/
theorem isIn_textPlaces {nodes : List Node} {place : Place} (h : place ∈ textPlaces nodes)
    (attributes : List Attribute) : place.IsIn attributes (textsOf nodes) := by
  obtain ⟨⟨value, span⟩, ht, hplace⟩ := List.mem_flatMap.1 h
  obtain ⟨m, hm, rfl⟩ := List.mem_map.1 hplace
  exact ⟨(value, span), childTexts_subset nodes ht, rfl, hm⟩

mutual

/-- The places at a node and below it are among its attributes and texts. -/
theorem Node.isIn_places {settings : Settings} {node : Node} {place : Place}
    (h : place ∈ node.places settings) : place.IsIn node.attributes node.texts := by
  cases node with
  | text value span => cases h
  | comment value span => cases h
  | element e children =>
    rw [Node.places] at h
    split at h
    · cases h
    · simp only [Element.places, List.mem_append, List.mem_map, List.mem_filter, Option.mem_toList] at h
      rcases h with ((⟨a, ha, rfl⟩ | ⟨a, ⟨ha, -⟩, rfl⟩) | htext) | hplace
      · exact List.mem_append_left _ (List.mem_of_find?_eq_some ha)
      · exact List.mem_append_left _ ha
      · exact isIn_textPlaces htext _
      · exact (isIn_places hplace).mono (List.subset_append_right _ _) (List.Subset.refl _)

/-- The places of a forest are among its attributes and texts. -/
theorem isIn_places {settings : Settings} {nodes : List Node} {place : Place}
    (h : place ∈ places settings nodes) : place.IsIn (attributesOf nodes) (textsOf nodes) := by
  cases nodes with
  | nil => cases h
  | cons node nodes =>
    rw [places, List.mem_append] at h
    rcases h with h | h
    · exact (Node.isIn_places h).mono (List.subset_append_left _ _) (List.subset_append_left _ _)
    · exact (isIn_places h).mono (List.subset_append_right _ _) (List.subset_append_right _ _)

end

/-- The places of a template are among its attributes and texts. -/
theorem isIn_rootPlaces {settings : Settings} {nodes : List Node} {place : Place}
    (h : place ∈ rootPlaces settings nodes) : place.IsIn (attributesOf nodes) (textsOf nodes) := by
  rcases List.mem_append.1 ((rootPlaces_perm settings nodes).mem_iff.1 h) with h | h
  · exact isIn_textPlaces h _
  · exact isIn_places h

end Markup

/-! ## The edits of a compile are those of its new texts -/

namespace Visit

variable {vs : List Visit} {nodes : List Node}

/-- What the visits change is what their new texts change in the forest. -/
theorem Spread.mem_editsOf (h : Spread vs)
    (hplaces : ∀ v ∈ vs, v.place.IsIn (Markup.attributesOf nodes) (Markup.textsOf nodes)) (e : Edit) :
    e ∈ Markup.editsOf (newTexts vs) nodes ↔ e ∈ vs.filterMap (·.edit?) := by
  rw [Markup.mem_editsOf, NewTexts.Makes, List.mem_filterMap]
  -- The new text of a place is the one of the visit that changes it, and no two visits change the
  -- same place.
  constructor
  · rintro (⟨a, -, he⟩ | ⟨t, -, he⟩)
    · obtain ⟨hspan, hvalue⟩ := NewTexts.mem_edits.1 he
      obtain ⟨v, hfound, htext⟩ := Option.map_eq_some_iff.1 hvalue
      obtain ⟨hv, ⟨f, hf⟩, ha⟩ := editor?_eq_some hfound
      obtain ⟨hspan', htext'⟩ := edit_attribute hf (beq_iff_eq.1 ha)
      obtain ⟨span, text⟩ := e
      obtain ⟨span', text'⟩ := f
      obtain rfl : span' = span := Option.some.inj (hspan'.symm.trans hspan)
      obtain rfl : text' = text := htext'.trans htext
      exact ⟨v, hv, hf⟩
    · obtain ⟨m, -, hinside, hspan⟩ := Markup.mem_fillEdits.1 he
      obtain ⟨v, hfound, htext⟩ := Option.map_eq_some_iff.1 hinside
      obtain ⟨hv, ⟨f, hf⟩, hplace⟩ := editor?_eq_some hfound
      obtain rfl := edit_inside hf (beq_iff_eq.1 hplace)
      obtain ⟨span, text⟩ := e
      obtain rfl : span = m.span t.2.start := hspan
      obtain rfl : (" " ++ v.shown ++ " ").toList = text := htext
      exact ⟨v, hv, hf⟩
  · rintro ⟨v, hv, he⟩
    have hplace := hplaces v hv
    cases ha : v.place.attribute? with
    | some a =>
      refine .inl ⟨a, hplace.attribute ha, NewTexts.mem_edits.2 ⟨(edit_attribute he ha).1, ?_⟩⟩
      rw [(edit_attribute he ha).2]
      exact congrArg (Option.map _) (h.editor?_attribute hv he ha)
    | none =>
      obtain ⟨t, ht, m, hm, hspan⟩ := hplace.inside ha
      obtain rfl := edit_inside he hspan
      refine .inr ⟨t, ht, Markup.mem_fillEdits.2 ⟨m, hm, ?_, rfl⟩⟩
      exact congrArg (Option.map _) (h.editor?_inside hv he hspan)

/-- The visits of a compile are spread over its source. -/
theorem spread_of_compiled {job : Job} {settings : Settings} {source : List Char} {hi : Nat}
    (hlaid : Markup.Laid source 0 hi nodes)
    (hplaces : vs.map (·.place) = Markup.rootPlaces settings nodes)
    (hcompiled : ∀ v ∈ vs, v.Compiled job) : Spread vs where
  proper v hv e he := by
    have hmem : v.place ∈ Markup.rootPlaces settings nodes := hplaces ▸ List.mem_map_of_mem hv
    have hlocated : v.place.Located source := by
      rcases List.mem_append.1 ((Markup.rootPlaces_perm settings nodes).mem_iff.1 hmem) with h | h
      · exact Markup.located_textPlaces hlaid _ h
      · exact hlaid.located settings _ h
    obtain ⟨old, hne, hold⟩ := (hcompiled v hv).holds_of_edit? hlocated he
    exact hold.start_lt hne
  apart := by
    have hspread : Span.Spread 0 hi ((Markup.rootPlaces settings nodes).filterMap Place.span?) := by
      refine ((hlaid.spread settings).sublist (List.sublist_append_right _ _)).perm ?_
      exact (Markup.rootPlaces_perm settings nodes).symm.filterMap _
    rw [← hplaces] at hspread
    have hapart := (hspread.sublist (spans_sublist vs)).2
    exact List.pairwise_filterMap.1 (List.pairwise_map.1 hapart)

/-- The edits of visits that are spread are those of their new texts. -/
theorem Spread.perm_editsOf (h : Spread vs)
    (hplaces : ∀ v ∈ vs, v.place.IsIn (Markup.attributesOf nodes) (Markup.textsOf nodes))
    {source target : List Char}
    (hrewrites : Edit.Rewrites 0 source (Markup.editsOf (newTexts vs) nodes) target) :
    (vs.filterMap (·.edit?)).Perm (Markup.editsOf (newTexts vs) nodes) ∧
      ∀ e ∈ Markup.editsOf (newTexts vs) nodes, e.span.start < e.span.stop := by
  have hproper : ∀ e ∈ Markup.editsOf (newTexts vs) nodes, e.span.start < e.span.stop := by
    intro e he
    obtain ⟨v, hv, he⟩ := List.mem_filterMap.1 ((h.mem_editsOf hplaces e).1 he)
    exact h.proper v hv e he
  refine ⟨?_, hproper⟩
  refine (List.perm_ext_iff_of_nodup ?_ ?_).2 fun e => (h.mem_editsOf hplaces e).symm
  · refine (List.pairwise_filterMap.2 (h.apart.imp_of_mem ?_))
    rintro v w hv - hvw e he f hf rfl
    have hlt := h.proper v hv e he
    rcases hvw e he e hf with hle | hle <;> omega
  · refine hrewrites.order.2.imp_of_mem ?_
    rintro e f he - hef rfl
    have hlt := hproper e he
    omega

/-! ## Values in the tree of the compiled template -/

/-- An attribute that no visit changes has its old value, and that is shown. -/
theorem shownValue_of_none {a : Attribute} (h : editor? vs (·.attribute? == some a) = none) :
    (newTexts vs).valueOf a = a.value ∧ shownValue vs a = a.value := by
  have hvalue : (newTexts vs).value a = Option.map _ (editor? vs (·.attribute? == some a)) := rfl
  rw [NewTexts.valueOf, hvalue, shownValue, h]
  exact ⟨rfl, rfl⟩

/-- An attribute that a visit changes has what the escaped text decodes to, and shows the text. -/
theorem shownValue_of_some {v : Visit} {a : Attribute}
    (h : editor? vs (·.attribute? == some a) = some v) :
    (newTexts vs).valueOf a =
        String.ofList (Markup.decodeReferences (Compile.escapeQuote a.quote v.shown.toList)) ∧
      shownValue vs a = v.shown := by
  have hvalue : (newTexts vs).value a = Option.map _ (editor? vs (·.attribute? == some a)) := rfl
  rw [NewTexts.valueOf, hvalue, shownValue, h]
  exact ⟨rfl, rfl⟩

/-- When the visits read back, the values of the new texts are those that are shown. -/
theorem valueOf_newTexts (h : ∀ v ∈ vs, v.ReadsBack) (a : Attribute) :
    (newTexts vs).valueOf a = shownValue vs a := by
  cases hfound : editor? vs (·.attribute? == some a) with
  | none =>
    obtain ⟨hvalue, hshown⟩ := shownValue_of_none hfound
    rw [hvalue, hshown]
  | some v =>
    obtain ⟨hvalue, hshown⟩ := shownValue_of_some hfound
    obtain ⟨hv, ⟨e, he⟩, ha⟩ := editor?_eq_some hfound
    have ha := beq_iff_eq.1 ha
    have hback := h v hv e he (by rw [ha]; rfl)
    rw [(edit_attribute he ha).2] at hback
    rw [hvalue, hshown, hback, String.ofList_toList]

/-- Values that are shown in the tree have been read back. -/
theorem Spread.readsBack (h : Spread vs)
    (hplaces : ∀ v ∈ vs, v.place.IsIn (Markup.attributesOf nodes) (Markup.textsOf nodes))
    (hvalues : ∀ a ∈ Markup.attributesOf nodes, a.valueSpan.isSome →
      (newTexts vs).valueOf a = shownValue vs a) : ∀ v ∈ vs, v.ReadsBack := by
  intro v hv e he hattribute
  obtain ⟨a, ha⟩ := Option.isSome_iff_exists.1 hattribute
  obtain ⟨hspan, htext⟩ := edit_attribute he ha
  have hmem : a ∈ Markup.attributesOf nodes := (hplaces v hv).attribute ha
  obtain ⟨hvalue, hshown⟩ := shownValue_of_some (h.editor?_attribute hv he ha)
  have heq := hvalues a hmem (by rw [hspan]; rfl)
  rw [hvalue, hshown, ← htext] at heq
  rw [← heq, String.toList_ofList]

end Visit

/-! ## The tree of the compiled template -/

/-- What a compile answers is what it has recorded, with the template that its edits make. -/
theorem Compile.exec_source_answer {job : Job} {ctx : Context} {c : Compiled}
    (h : ((source job).exec { context := ctx }).1 = .ok c) :
    c = { ((source job).exec { context := ctx }).2.result with
      template := String.ofList
        (Edit.applyAll job.file.content ((source job).exec { context := ctx }).2.edits) } := by
  revert h
  unfold source
  rw [exec_bind_of_ok (exec_modifyContext _ _)]
  obtain ⟨q, hq, -⟩ := silent_forM silent_reportMarkup (Markup.Tree.ofSource job.file.content).errors
    { context := job.settings.implicitImports.foldl Context.addImplicitImport ctx }
  rw [exec_bind_of_ok hq]
  obtain ⟨p, hp, -⟩ := exec_imports
    (importElements job.settings (Markup.Tree.ofSource job.file.content).nodes) q
  rw [exec_bind_of_ok hp]
  rcases hroots : (roots job (Markup.Tree.ofSource job.file.content).nodes).exec p with ⟨answer, r⟩
  cases answer with
  | error error =>
    rw [exec_bind_of_error hroots]
    rintro ⟨⟩
  | ok u =>
    rw [exec_bind_of_ok hroots, exec_bind_of_ok (exec_get r), exec_bind_of_ok (exec_say _ _ _),
      exec_pure]
    rintro ⟨⟩
    rfl

/-- A template is its source with the edits applied that the compile has recorded. -/
theorem Compile.exec_source_template {job : Job} {ctx : Context} {c : Compiled}
    (h : ((source job).exec { context := ctx }).1 = .ok c) : c.template =
      String.ofList (Edit.applyAll job.file.content ((source job).exec { context := ctx }).2.edits) :=
  congrArg Compiled.template (exec_source_answer h)

/-- A compiled template without import elements is read as the tree of its source, when what its visits
write keeps within its place: the same elements with the same attributes, the same comments, and the
same texts but for the insides of markers. The value of each attribute is then what its visit shows if
and only if what the visits write reads back. -/
theorem compileTemplate_outline {settings : Settings} {url template : String} {ctx : Context}
    {c : Compiled} (h : (compileTemplate settings url template ctx).answer = .ok c)
    (himports : Compile.importElements settings (Tree.ofSource template.toList).nodes = []) :
    ∃ vs : List Visit,
      vs.map (·.place) = Markup.rootPlaces settings (Tree.ofSource template.toList).nodes ∧
      (∀ v ∈ vs, v.Compiled ⟨settings, ⟨url, template.toList⟩⟩) ∧
      c.expressions = vs.filterMap (·.expression?) ∧
      ((∀ v ∈ vs, v.Bounded) →
        (Tree.ofSource c.template.toList).outline =
          Markup.outlines (Visit.newTexts vs).valueOf (Markup.refill (Visit.shownInside vs))
            (Tree.ofSource template.toList).nodes ∧
        ((Tree.ofSource c.template.toList).outline =
          Markup.outlines (Visit.shownValue vs) (Markup.refill (Visit.shownInside vs))
            (Tree.ofSource template.toList).nodes ↔ ∀ v ∈ vs, v.ReadsBack)) := by
  obtain ⟨p, vs, q, hstart, hnone, htrail, -, -, hok⟩ :=
    Compile.exec_source ⟨settings, ⟨url, template.toList⟩⟩ ctx
  obtain ⟨hplaces, hc⟩ := hok c h
  refine ⟨vs, hplaces, htrail.compiled, ?_, fun hbounded => ?_⟩
  · rw [hc, htrail.expressions, hnone, List.nil_append]
  · have hspread : Visit.Spread vs :=
      Visit.spread_of_compiled (Markup.laid_ofSource template.toList) hplaces htrail.compiled
    have hisIn : ∀ v ∈ vs, v.place.IsIn _ _ := fun v hv =>
      Markup.isIn_rootPlaces (hplaces ▸ List.mem_map_of_mem hv)
    obtain ⟨target, hrewrites, houtline⟩ :=
      Markup.exists_reread (Visit.newTexts_fit hbounded) template.toList
    -- Rewriting the source by the new texts of the forest comes to the same as applying the recorded
    -- edits.
    have htemplate : c.template.toList = target := by
      obtain ⟨hperm, hproper⟩ := hspread.perm_editsOf hisIn hrewrites
      have hedits : q.edits = vs.filterMap (·.edit?) := by
        rw [htrail.edits, hstart]
        simp [himports]
      rw [hc, String.toList_ofList, hedits]
      exact hrewrites.applyAll_eq hperm hproper
    rw [htemplate]
    refine ⟨houtline, fun hshown => ?_, fun hback => ?_⟩
    · exact hspread.readsBack hisIn (Markup.value_eq_of_outlines (houtline.symm.trans hshown))
    · rw [houtline]
      exact congrArg (Markup.outlines · _ _) (funext (Visit.valueOf_newTexts hback))

/-- A binding between quotes, with the call of its expression in it. -/
theorem outline_of_binding : ∃ (c : Compiled) (vs : List Visit),
    (compileTemplate {} "a.html" "<p :x=\"y+1\"></p>" { root := [⟨"y", .int, .loopLocal⟩] }).answer =
      .ok c ∧
    Compile.importElements {} (Tree.ofSource "<p :x=\"y+1\"></p>".toList).nodes = [] ∧
    (∀ v ∈ vs, v.Bounded ∧ v.ReadsBack) ∧ vs.map (·.shown) = ["exp0(y)"] ∧
    (Tree.ofSource c.template.toList).outline =
      Markup.outlines (Visit.shownValue vs) (Markup.refill (Visit.shownInside vs))
        (Tree.ofSource "<p :x=\"y+1\"></p>".toList).nodes := by
  have hcalls : (compileTemplate {} "a.html" "<p :x=\"y+1\"></p>"
      { root := [⟨"y", .int, .loopLocal⟩] }).answer.toOption.map (·.expressions.map (·.call)) =
        some ["exp0(y)"] := by
    decide +kernel
  have himports : Compile.importElements {} (Tree.ofSource "<p :x=\"y+1\"></p>".toList).nodes = [] := by
    decide +kernel
  have hplace : (Markup.rootPlaces {} (Tree.ofSource "<p :x=\"y+1\"></p>".toList).nodes).map
      (fun | .value _ a => some (a.name, a.quote) | _ => none) = [some (":x", some '"')] := by
    decide +kernel
  obtain ⟨c, hc, hexpressions⟩ := Option.map_eq_some_iff.1 hcalls
  have hrun := eq_ok_of_toOption hc
  obtain ⟨vs, hplaces, hcompiled, hentries, htree⟩ := compileTemplate_outline hrun himports
  rw [← hplaces, List.map_map] at hplace
  obtain ⟨v, rfl, hv⟩ := List.map_eq_singleton_iff.1 hplace
  have hcompiled := hcompiled v List.mem_cons_self
  cases hp : v.place with
  | loop e a => simp [hp] at hv
  | marker offset m => simp [hp] at hv
  | value e a =>
    have hquote : a.quote = some '"' := by simp_all
    have hshown : v.shown = "exp0(y)" := by
      have hfits := hcompiled.1
      rw [Visit.Fits, hp] at hfits
      rw [hfits.2.2.2, hcompiled.text_eq, Compile.shownText]
      rw [hentries] at hexpressions
      cases hentry : v.expression? with
      | none => simp [hentry] at hexpressions
      | some entry => simpa [hentry] using hexpressions
    have hback : v.ReadsBack := by
      apply Visit.readsBack_of_not_mem
      rw [hshown]
      decide
    have hbounded : v.Bounded := by
      intro edit hedit
      have ha : v.place.attribute? = some a := by rw [hp]; rfl
      have htext := (Visit.edit_attribute hedit ha).2
      rw [hquote, hshown] at htext
      refine ⟨by rw [htext]; decide, fun b hb hnone => ?_, fun hnone => ?_⟩
      · obtain rfl := Option.some.inj (ha.symm.trans hb)
        rw [hquote] at hnone
        cases hnone
      · rw [ha] at hnone
        cases hnone
    refine ⟨c, [v], hrun, himports, by simpa using ⟨hbounded, hback⟩, by simp [hshown], ?_⟩
    exact ((htree (by simpa using hbounded)).2).2 (by simpa using hback)

/-- Without quotes, the call of an expression with two parameters is read as two attributes: the second
one starts behind the blank. -/
theorem unquoted_call_divided :
    let template := "<i v-for=\"(int a, int b) in 3\" :x=a+b></i>"
    ∃ c : Compiled, (compileTemplate {} "a.html" template {}).answer = .ok c ∧
      c.template = "<i v-for=\"(a, b) in exp0()\" :x=exp1(a, b)></i>" ∧
      (Markup.attributesOf (Tree.ofSource template.toList).nodes).map (·.name) = ["v-for", ":x"] ∧
      (Markup.attributesOf (Tree.ofSource c.template.toList).nodes).map (fun a => (a.name, a.value)) =
        [("v-for", "(a, b) in exp0()"), (":x", "exp1(a,"), ("b)", "")] := by
  intro template
  have hok : (compileTemplate {} "a.html" template {}).answer.toOption.isSome = true := by
    decide +kernel
  obtain ⟨c, hc⟩ := Option.isSome_iff_exists.1 hok
  have hrun := eq_ok_of_toOption hc
  have hedits : ((Compile.source ⟨{}, ⟨"a.html", template.toList⟩⟩).exec { context := {} }).2.edits =
      [⟨⟨10, 29⟩, "(a, b) in exp0()".toList⟩, ⟨⟨34, 37⟩, "exp1(a, b)".toList⟩] := by
    decide +kernel
  have hsorted : [(⟨⟨10, 29⟩, "(a, b) in exp0()".toList⟩ : Edit),
      ⟨⟨34, 37⟩, "exp1(a, b)".toList⟩].Pairwise fun a b => Edit.le a b = true := by
    decide +kernel
  have htemplate : c.template = "<i v-for=\"(a, b) in exp0()\" :x=exp1(a, b)></i>" := by
    rw [Compile.exec_source_template hrun, hedits, Edit.applyAll, List.mergeSort_of_pairwise hsorted]
    decide +kernel
  refine ⟨c, hrun, htemplate, by decide +kernel, ?_⟩
  rw [htemplate]
  decide +kernel

end Stencil
