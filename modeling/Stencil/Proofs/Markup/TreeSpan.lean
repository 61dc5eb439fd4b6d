import Stencil.Proofs.Compile.Place
import Stencil.Proofs.Markup.Problem
import Stencil.Proofs.Source.Slicing

/-!
# The spans of a tree

All that is later done to a source is done at spans that the tree of the source has: those of its
nodes, tags and attributes, of the values of the attributes and the insides of the markers, and of
what is wrong with the markup. `Tree.spans` lists them.

**The law** (`fits_of_mem_spans`): all of them fit the source, however malformed it is: they start and
stop between two characters, within the source and in order. So the source can be sliced at each of
them.

For the nodes this is read off the layout of the tree (`Laid.fits`, by the mutual recursion of the
layout), with the insides of markers found in the texts that the layout places (`holds_marker`). For
the problems it is shown where they are made, piece by piece (`errorsCut_piecesFrom`), since the
layout does not speak of them.

**What it does not establish.** The spans may be nested or the same; how they lie to each other is
told by the layout.
-/

namespace Stencil.Markup

open Text (byteSize)

/-- The spans of an attribute. -/
def Attribute.spans (a : Attribute) : List Span := a.span :: a.valueSpan.toList

/-- The spans of an element apart from its contents. -/
def Element.spans (e : Element) : List Span :=
  e.span :: e.startSpan :: (e.endSpan.toList ++ e.attributes.flatMap (·.spans))

mutual

/-- The spans of a node and of all below it, with those of the markers in its texts. -/
def Node.spans : Node → List Span
  | .text value span => span :: (markers value.toList).map (·.span span.start)
  | .comment _ span => [span]
  | .element e children => e.spans ++ spansOf children

/-- The spans of the nodes and of all below them. -/
def spansOf : List Node → List Span
  | [] => []
  | node :: nodes => node.spans ++ spansOf nodes

end

/-- The spans of a tree, with those of what is wrong with the markup. -/
def Tree.spans (t : Tree) : List Span := spansOf t.nodes ++ t.errors.map (·.span)

/-- The spans of an attribute are among those of its element. -/
theorem Element.spans_subset_of_mem {e : Element} {a : Attribute} (h : a ∈ e.attributes) :
    a.spans ⊆ e.spans := by
  intro s hs
  simp only [Element.spans, List.mem_cons, List.mem_append, List.mem_flatMap]
  exact .inr (.inr (.inr ⟨a, h, hs⟩))

/-- The spans of a node are among those of its siblings. -/
theorem spans_subset_of_mem {node : Node} {nodes : List Node} (h : node ∈ nodes) :
    node.spans ⊆ spansOf nodes := by
  induction nodes with
  | nil => cases h
  | cons first nodes ih =>
    intro s hs
    rw [spansOf]
    rcases List.mem_cons.1 h with rfl | h
    · exact List.mem_append_left _ hs
    · exact List.mem_append_right _ (ih h hs)

/-- The texts between the tags are nodes there. -/
theorem mem_of_mem_childTexts {nodes : List Node} {t : String × Span} (h : t ∈ childTexts nodes) :
    Node.text t.1 t.2 ∈ nodes := by
  obtain ⟨node, hnode, ht⟩ := List.mem_filterMap.1 h
  cases node with
  | text value span =>
    obtain rfl := Option.some.inj ht
    exact hnode
  | comment value span => cases ht
  | element e children => cases ht

variable {source : List Char}

/-! ## The nodes -/

/-- The spans of an attribute that is laid out fit the source. -/
theorem Attribute.Laid.fits {a : Attribute} (h : a.Laid source) : ∀ s ∈ a.spans, s.Fits source := by
  intro s hs
  rcases List.mem_cons.1 hs with rfl | hs
  · exact h.cuts.fits
  · obtain ⟨-, -, raw, hraw, -⟩ := h.valued s (Option.mem_toList.1 hs)
    exact hraw.fits

/-- The spans of an element that is laid out fit the source. -/
theorem Element.Tagged.fits {e : Element} (htagged : e.Tagged source) (hended : e.Ended source)
    (hcuts : e.span.Cuts source) : ∀ s ∈ e.spans, s.Fits source := by
  intro s hs
  simp only [Element.spans, List.mem_cons, List.mem_append, List.mem_flatMap] at hs
  rcases hs with rfl | rfl | hend | ⟨a, ha, hs⟩
  · exact hcuts.fits
  · exact htagged.cuts.fits
  · exact (hended s (Option.mem_toList.1 hend)).1.fits
  · exact (htagged.laid a ha).fits s hs

/-- The inside of a marker stands where its span says. -/
theorem holds_marker {value : List Char} {span : Span} {m : Marker} (h : span.Holds source value)
    (hm : m ∈ markers value) : (m.span span.start).Holds source m.inside := by
  obtain ⟨outer, ⟨before, after, hsource, rfl⟩, hspan⟩ := (located_markers h).2 m hm
  have hopen : byteSize ['\x7b', '\x7b'] = 2 := rfl
  have hclose : byteSize ['\x7d', '\x7d'] = 2 := rfl
  refine ⟨before ++ ['\x7b', '\x7b'], ['\x7d', '\x7d'] ++ after, by simp [hsource], ?_⟩
  rw [hspan, Text.byteSize_append, Text.byteSize_append, Text.byteSize_append, hopen, hclose]
  congr 1
  show byteSize before + (2 + byteSize m.inside + 2) - 2 = _
  omega

mutual

/-- The spans of a node that is laid out fit the source. -/
theorem Node.Laid.fits {node : Node} (h : node.Laid source) : ∀ s ∈ node.spans, s.Fits source := by
  cases node with
  | text value span =>
    rw [Node.Laid] at h
    intro s hs
    rw [Node.spans] at hs
    rcases List.mem_cons.1 hs with rfl | hs
    · exact h.2.fits
    · obtain ⟨m, hm, rfl⟩ := List.mem_map.1 hs
      exact (holds_marker h.2 hm).fits
  | comment value span =>
    intro s hs
    rw [Node.spans] at hs
    obtain rfl := List.mem_singleton.1 hs
    exact h.cuts.fits
  | element e children =>
    rw [Node.Laid] at h
    obtain ⟨hcuts, htagged, hended, hchildren⟩ := h
    intro s hs
    rw [Node.spans] at hs
    rcases List.mem_append.1 hs with hs | hs
    · exact htagged.fits hended hcuts s hs
    · exact Laid.fits hchildren s hs

/-- The spans of siblings that are laid out fit the source. -/
theorem Laid.fits {lo hi : Nat} {nodes : List Node} (h : Laid source lo hi nodes) :
    ∀ s ∈ spansOf nodes, s.Fits source := by
  cases nodes with
  | nil => simp [spansOf]
  | cons node nodes =>
    rw [Laid] at h
    intro s hs
    rw [spansOf] at hs
    rcases List.mem_append.1 hs with hs | hs
    · exact h.2.1.fits s hs
    · exact Laid.fits h.2.2 s hs

end

/-! ## What is wrong -/

/-- What is reported with the pieces is reported where a piece of the source stands. -/
def ErrorsCut (source : List Char) (ps : List Piece) : Prop :=
  ∀ p ∈ ps, ∀ error, p.error? = some error → error.span.Cuts source

/-- Problems that cut pieces out of the source, in front of a piece without one. -/
theorem errorsCut_problems {errors : List MarkupError} {last : Piece} (hlast : last.error? = none)
    (h : ∀ error ∈ errors, error.span.Cuts source) :
    ErrorsCut source (errors.map .problem ++ [last]) := by
  refine forall_problems (fun found hfound error herror => ?_)
    (List.forall_mem_singleton.2 fun error herror => ?_)
  · obtain rfl := Option.some.inj herror
    exact h found hfound
  · rw [hlast] at herror
    cases herror

section

variable {c : Char} {cs : List Char}

/-- The problems of an element cut pieces out of the source. -/
theorem errorsCut_cutElement (h : c :: cs <:+ source) :
    ErrorsCut source (cutElement (byteSize source) (c :: cs) cs).1 := by
  have hfrom : cs.dropWhile Text.isNameChar <:+ cs := List.dropWhile_suffix _
  have hattributes := attributes_errors (byteSize source) (cs.dropWhile Text.isNameChar)
  have hrest := attributes_suffix (byteSize source) (cs.dropWhile Text.isNameChar)
  simp only [cutElement]
  generalize attributes (byteSize source) (cs.dropWhile Text.isNameChar) = tag
    at hattributes hrest ⊢
  have hreported : ∀ error ∈ tag.reported (String.ofList (cs.takeWhile Text.isNameChar))
      (spanBetween (byteSize source) (c :: cs) tag.rest), error.span.Cuts source := by
    intro error herror
    rcases ReadTag.mem_reported herror with herror | ⟨-, rfl⟩
    · obtain ⟨-, start, hne, hstart, hspan⟩ := hattributes error herror
      obtain ⟨d, start, rfl⟩ := List.exists_cons_of_ne_nil hne
      rw [hspan]
      exact cuts_spanBetween
        ((hstart.trans hfrom).trans ((List.suffix_cons c cs).trans h)) List.nil_suffix
    · exact cuts_spanBetween h (hrest.trans hfrom)
  split
  · exact errorsCut_problems rfl hreported
  · split
    · exact errorsCut_problems rfl hreported
    · exact errorsCut_problems rfl hreported

/-- The problems of what is cut off cut pieces out of the source. -/
theorem errorsCut_cutPiece (h : c :: cs <:+ source) :
    ErrorsCut source (cutPiece (byteSize source) c cs).1 := by
  unfold cutPiece
  split
  · unfold cutComment
    split
    · exact List.forall_mem_singleton.2 nofun
    · exact errorsCut_problems rfl
        (List.forall_mem_singleton.2 (cuts_spanBetween h List.nil_suffix))
  · exact List.forall_mem_nil _
  · exact List.forall_mem_nil _
  · split
    · have hrest := cutEndTag_suffix (byteSize source) (c :: cs) (cs.drop 1)
      refine List.forall_mem_singleton.2 fun error herror => ?_
      obtain rfl := Option.some.inj herror
      exact cuts_spanBetween h (hrest.trans (List.drop_suffix _ _))
    · split
      · exact errorsCut_cutElement h
      · exact List.forall_mem_singleton.2 nofun

/-- The problems of all pieces cut pieces out of the source. -/
theorem errorsCut_piecesFrom (h : cs <:+ source) :
    ErrorsCut source (piecesFrom (byteSize source) cs) :=
  forall_piecesFrom (fun _ _ => errorsCut_cutPiece) h

end

/-- The source can be sliced at every span of its tree. -/
theorem fits_of_mem_spans : ∀ s ∈ (Tree.ofSource source).spans, s.Fits source := by
  intro s hs
  rcases List.mem_append.1 hs with hs | hs
  · exact (laid_ofSource source).fits s hs
  · obtain ⟨error, herror, rfl⟩ := List.mem_map.1 hs
    obtain ⟨p, hp, hfound⟩ := exists_error? herror
    exact (errorsCut_piecesFrom (List.suffix_refl source) p hp error hfound).fits

end Stencil.Markup
