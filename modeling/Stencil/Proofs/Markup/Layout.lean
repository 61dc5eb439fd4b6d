import Stencil.Markup.Tree
import Stencil.Proofs.Source.Held

/-!
# The layout of a tree

A tree is laid out in its source when each node is where its span says: siblings follow each other,
the contents of an element lie between its tags, its attributes lie in its start tag, and texts and
attribute values are what the source holds there. `Node.Laid` says so of a node and `Laid` of a list
of siblings between two offsets; both are by recursion on the tree, and neither knows how the tree was
built.

A draft keeps this as an invariant, `Draft.LaidTo`: the open elements stay nested and laid out up to
some offset. Each step has a lemma: a node behind that offset is added (`LaidTo.add`), a text that
touches the last one is put together with it (`LaidTo.addText`), elements are closed where the
contents end (`LaidTo.closeInner`) or by an end tag (`LaidTo.closeBy`). An element that ends is laid
out wherever it ends (`laid_ended`), with its end tag or without. Proofs/Markup/Pieces puts the steps
together.

Nothing is assumed of the source; malformed markup has a layout too.

**What it does not establish.** That the layout leaves nothing of the source out is
Proofs/Markup/Partition.
-/

namespace Stencil

open Text (byteSize isBoundary)

/-- Spans that follow each other between two offsets. -/
def Span.InOrder : (lo hi : Nat) → List Span → Prop
  | lo, hi, [] => lo ≤ hi
  | lo, hi, s :: ss => lo ≤ s.start ∧ s.start ≤ s.stop ∧ InOrder s.stop hi ss

namespace Span

/-- Spans in order have their limits in order. -/
theorem InOrder.le {lo hi : Nat} {ss : List Span} (h : InOrder lo hi ss) : lo ≤ hi := by
  induction ss generalizing lo with
  | nil => exact h
  | cons s ss ih =>
    obtain ⟨hstart, hproper, hrest⟩ := h
    have := ih hrest
    omega

/-- Spans in order may start earlier. -/
theorem InOrder.mono {lo lo' hi : Nat} {ss : List Span} (h : InOrder lo hi ss) (hlo : lo' ≤ lo) :
    InOrder lo' hi ss := by
  cases ss with
  | nil => exact Nat.le_trans hlo h
  | cons s ss => exact ⟨Nat.le_trans hlo h.1, h.2⟩

end Span

namespace Markup

variable {source : List Char}

/-! ## Elements and their attributes -/

/-- The attribute is where its span says, and its value is what the source holds there. -/
structure Attribute.Laid (source : List Char) (a : Attribute) : Prop where
  cuts : a.span.Cuts source
  bare : a.valueSpan = none → a.value = ""
  valued : ∀ span, a.valueSpan = some span → a.span.start ≤ span.start ∧ span.stop ≤ a.span.stop ∧
    ∃ raw, span.Holds source raw ∧ a.value = String.ofList (decodeReferences raw)

/-- The element starts with its start tag, and its attributes lie in that tag. -/
structure Element.Tagged (source : List Char) (e : Element) : Prop where
  begins : e.span.start = e.startSpan.start
  cuts : e.startSpan.Cuts source
  order : Span.InOrder e.startSpan.start e.startSpan.stop (e.attributes.map (·.span))
  laid : ∀ a ∈ e.attributes, a.Laid source

/-- Where the contents of the element end. -/
def Element.contentsStop (e : Element) : Nat := (e.endSpan.map (·.start)).getD e.span.stop

/-- The end tag cuts a piece out of the source, with which the element ends. -/
def Element.Ended (source : List Char) (e : Element) : Prop :=
  ∀ tag, e.endSpan = some tag → tag.Cuts source ∧ tag.stop = e.span.stop

/-- The contents of an element end before the element does. -/
theorem Element.Ended.contentsStop_le {e : Element} (h : e.Ended source) :
    e.contentsStop ≤ e.span.stop := by
  unfold contentsStop
  cases hend : e.endSpan with
  | none => exact Nat.le_refl _
  | some tag =>
    obtain ⟨hcuts, hstop⟩ := h tag hend
    exact hstop ▸ Nat.le_of_lt hcuts.proper

/-- What a comment may look like: the last one of a source may lack its end. -/
def CommentText (value piece : List Char) : Prop :=
  piece = "<!--".toList ++ value ++ "-->".toList ∨ piece = "<!--".toList ++ value

/-! ## Nodes -/

/-- The span of a node. -/
def Node.span : Node → Span
  | .text _ span | .comment _ span => span
  | .element e _ => e.span

mutual

/-- The node is laid out in the source within its span. -/
def Node.Laid (source : List Char) : Node → Prop
  | .text value span => value.toList ≠ [] ∧ span.Holds source value.toList
  | .comment value span => ∃ piece, span.Holds source piece ∧ CommentText value.toList piece
  | .element e children =>
    e.span.Cuts source ∧ e.Tagged source ∧ e.Ended source ∧
      Laid source e.startSpan.stop e.contentsStop children

/-- The nodes follow each other between two offsets, each laid out within its span. -/
def Laid (source : List Char) : (lo hi : Nat) → List Node → Prop
  | lo, hi, [] => lo ≤ hi
  | lo, hi, node :: nodes =>
    lo ≤ node.span.start ∧ node.Laid source ∧ Laid source node.span.stop hi nodes

end

/-- A node that is laid out cuts a piece out of the source. -/
theorem Node.Laid.cuts {node : Node} (h : node.Laid source) : node.span.Cuts source := by
  cases node with
  | text value span =>
    rw [Node.Laid] at h
    exact h.2.cuts h.1
  | comment value span =>
    rw [Node.Laid] at h
    obtain ⟨piece, hpiece, htext⟩ := h
    refine hpiece.cuts ?_
    rintro rfl
    rcases htext with h | h <;> simp at h
  | element e children =>
    rw [Node.Laid] at h
    exact h.1

section Siblings

variable {lo hi hi' : Nat} {node : Node} {nodes : List Node}

/-- Siblings that are laid out have their limits in order. -/
theorem Laid.le (h : Laid source lo hi nodes) : lo ≤ hi := by
  induction nodes generalizing lo with
  | nil => simpa only [Laid] using h
  | cons node nodes ih =>
    rw [Laid] at h
    obtain ⟨hstart, hnode, hrest⟩ := h
    have := hnode.cuts.proper
    have := ih hrest
    omega

/-- Siblings may be laid out with room behind them. -/
theorem Laid.mono (h : Laid source lo hi nodes) (hhi : hi ≤ hi') : Laid source lo hi' nodes := by
  induction nodes generalizing lo with
  | nil =>
    rw [Laid] at h ⊢
    exact Nat.le_trans h hhi
  | cons node nodes ih =>
    rw [Laid] at h ⊢
    exact ⟨h.1, h.2.1, ih h.2.2⟩

/-- One more node at the end. -/
theorem laid_concat : Laid source lo hi (nodes ++ [node]) ↔
    Laid source lo node.span.start nodes ∧ node.Laid source ∧ node.span.stop ≤ hi := by
  induction nodes generalizing lo with
  | nil => simp only [List.nil_append, Laid]
  | cons first nodes ih =>
    simp only [List.cons_append, Laid, ih, and_assoc]

end Siblings

/-! ## Drafts -/

/-- The open elements, the innermost first, are nested and laid out up to the offset `hi`: each has
its start tag, and its contents reach to where the next inner one starts. -/
def Stacked (source : List Char) (roots : List Node) : (hi : Nat) → List OpenElement → Prop
  | hi, [] => Laid source 0 hi roots.reverse
  | hi, e :: es =>
    e.element.Tagged source ∧ e.element.endSpan = none ∧
      Laid source e.element.startSpan.stop hi e.contents.reverse ∧
      Stacked source roots e.element.startSpan.start es

namespace Draft

/-- All that the draft has, open or not, is laid out up to the offset `hi`. -/
def LaidTo (source : List Char) (hi : Nat) (d : Draft) : Prop :=
  Stacked source d.roots hi d.opened

variable {d : Draft} {hi hi' : Nat}

/-- A draft may be laid out with room behind it. -/
theorem LaidTo.mono (h : d.LaidTo source hi) (hle : hi ≤ hi') : d.LaidTo source hi' := by
  unfold LaidTo at h ⊢
  cases hd : d.opened with
  | nil =>
    rw [hd, Stacked] at h
    exact h.mono hle
  | cons e es =>
    rw [hd, Stacked] at h
    exact ⟨h.1, h.2.1, h.2.2.1.mono hle, h.2.2.2⟩

/-- Changing the innermost contents keeps the rest as it is. -/
theorem LaidTo.mapContents {f : List Node → List Node} (h : d.LaidTo source hi)
    (hf : ∀ lo contents, Laid source lo hi contents.reverse →
      Laid source lo hi' (f contents).reverse) :
    (d.mapContents f).LaidTo source hi' := by
  unfold LaidTo at h ⊢
  cases hd : d.opened with
  | nil =>
    rw [hd, Stacked] at h
    simpa only [Draft.mapContents, hd, Stacked] using hf _ _ h
  | cons e es =>
    rw [hd, Stacked] at h
    simp only [Draft.mapContents, hd, Stacked]
    exact ⟨h.1, h.2.1, hf _ _ h.2.2.1, h.2.2.2⟩

/-- A node behind all that is laid out can be added. -/
theorem LaidTo.add {node : Node} (h : d.LaidTo source hi) (hnode : node.Laid source)
    (hstart : hi ≤ node.span.start) : (d.add node).LaidTo source node.span.stop := by
  refine h.mapContents fun lo contents hcontents => ?_
  rw [List.reverse_cons, laid_concat]
  exact ⟨hcontents.mono hstart, hnode, Nat.le_refl _⟩

/-- A text that continues another one is laid out as one text with it. -/
theorem LaidTo.addText {value : String} {span : Span} (h : d.LaidTo source hi)
    (hne : value.toList ≠ []) (hspan : span.Holds source value.toList) (hstart : hi ≤ span.start) :
    (d.addText value span).LaidTo source span.stop := by
  refine h.mapContents fun lo contents hcontents => ?_
  have hnode : (Node.text value span).Laid source := by
    rw [Node.Laid]
    exact ⟨hne, hspan⟩
  have hadd : Laid source lo span.stop (Node.text value span :: contents).reverse := by
    rw [List.reverse_cons, laid_concat]
    exact ⟨hcontents.mono hstart, hnode, Nat.le_refl _⟩
  split
  · next earlier earlierSpan nodes =>
    split
    · next htouch =>
      rw [List.reverse_cons, laid_concat, Node.Laid] at hcontents
      rw [List.reverse_cons, laid_concat, Node.Laid, String.toList_append]
      obtain ⟨hnodes, ⟨hne', hspan'⟩, -⟩ := hcontents
      exact ⟨hnodes, ⟨by simp [hne], hspan'.append hspan htouch⟩, Nat.le_refl _⟩
    · exact hadd
  · exact hadd

/-- Reporting a problem changes no layout. -/
theorem LaidTo.report {error : MarkupError} (h : d.LaidTo source hi) :
    (d.report error).LaidTo source hi := h

/-- An element that ends at `stop`, with or without an end tag, is laid out there. -/
theorem laid_ended {e : OpenElement} {stop : Nat} (endSpan : Option Span)
    (htag : e.element.Tagged source) (hstop : isBoundary stop source = true)
    (hend : ∀ tag, endSpan = some tag → tag.Cuts source ∧ tag.stop = stop)
    (hcontents : Laid source e.element.startSpan.stop ((endSpan.map (·.start)).getD stop)
      e.contents.reverse) :
    (Node.element { e.element with span := ⟨e.element.span.start, stop⟩, endSpan }
      e.contents.reverse).Laid source := by
  have hlast : (endSpan.map (·.start)).getD stop ≤ stop := by
    cases hs : endSpan with
    | none => exact Nat.le_refl _
    | some tag =>
      obtain ⟨hcuts, rfl⟩ := hend tag hs
      exact Nat.le_of_lt hcuts.proper
  have hlt : e.element.startSpan.start < stop := by
    have := htag.cuts.proper
    have := hcontents.le
    omega
  rw [Node.Laid]
  refine ⟨⟨htag.begins ▸ htag.cuts.start, hstop, htag.begins ▸ hlt⟩,
    ⟨htag.begins, htag.cuts, htag.order, htag.laid⟩, hend, hcontents⟩

/-- Elements are closed where their contents end. -/
theorem LaidTo.closeInner {stop : Nat} (count : Nat) (h : d.LaidTo source hi)
    (hle : hi ≤ stop) (hstop : isBoundary stop source = true) :
    (d.closeInner stop count).LaidTo source stop := by
  induction count generalizing d hi with
  | zero => exact h.mono hle
  | succ count ih =>
    rw [Draft.closeInner]
    cases hd : d.opened with
    | nil => exact h.mono hle
    | cons e es =>
      unfold LaidTo at h
      rw [hd, Stacked] at h
      obtain ⟨htag, hend, hcontents, hes⟩ := h
      have hnode : (e.close stop).Laid source := by
        have hended := laid_ended none htag hstop (by simp) (hcontents.mono hle)
        rwa [← hend] at hended
      have hadd : (({ d with opened := es } : Draft).add (e.close stop)).LaidTo source stop :=
        LaidTo.add (d := { d with opened := es }) hes hnode (Nat.le_of_eq htag.begins.symm)
      exact ih hadd (Nat.le_refl _)

/-- The innermost element is closed by an end tag behind its contents. -/
theorem LaidTo.closeBy {tag : Span} (h : d.LaidTo source hi) (hle : hi ≤ tag.start)
    (htag : tag.Cuts source) : (d.closeBy tag).LaidTo source tag.stop := by
  have hproper := htag.proper
  rw [Draft.closeBy]
  cases hd : d.opened with
  | nil => exact h.mono (by omega)
  | cons e es =>
    unfold LaidTo at h
    rw [hd, Stacked] at h
    obtain ⟨hopened, -, hcontents, hes⟩ := h
    have hnode : (e.closeBy tag).Laid source :=
      laid_ended (some tag) hopened htag.stop (by rintro _ ⟨⟩; exact ⟨htag, rfl⟩) (hcontents.mono hle)
    exact LaidTo.add (d := { d with opened := es }) hes hnode (Nat.le_of_eq hopened.begins.symm)

end Draft

end Markup

end Stencil
