import Stencil.Proofs.Markup.Layout
import Stencil.Proofs.Markup.Outline

/-!
# Where the texts of a tree are

In a tree that is laid out in its source, each text is what the source holds at its span
(`Laid.texts`). The texts are apart from each other, and from the start tags of the elements
(`Laid.textsApart`), wherever in the nesting they stand. `TextsApart` is that statement for two lists,
the texts and the elements of a forest.

Both go by the mutual recursion of the layout, over a node and over siblings. What is shown of a node
is within the span of the node, and siblings follow each other, so what is in two of them is apart.

These facts are used where the compile looks at texts and at attributes in turn, and has to know that
what it records at one of them does not touch what it records at another.

**What it does not establish.** End tags and comments are not looked at here; that they are apart from
the texts, too, follows from the layout itself.
-/

namespace Stencil.Markup

variable {source : List Char}

/-- The texts of a forest are those of its nodes. -/
theorem mem_textsOf {nodes : List Node} {t : String × Span} :
    t ∈ textsOf nodes ↔ ∃ node ∈ nodes, t ∈ node.texts := by
  induction nodes with
  | nil => simp [textsOf]
  | cons node nodes ih => simp [textsOf, ih]

/-- The text is not empty, and the source holds it at a span between two offsets. -/
structure TextWithin (source : List Char) (lo hi : Nat) (t : String × Span) : Prop where
  lo_le : lo ≤ t.2.start
  le_hi : t.2.stop ≤ hi
  ne_nil : t.1.toList ≠ []
  holds : t.2.Holds source t.1.toList

/-- A text within limits is within wider ones. -/
theorem TextWithin.mono {lo lo' hi hi' : Nat} {t : String × Span} (h : TextWithin source lo hi t)
    (hlo : lo' ≤ lo) (hhi : hi ≤ hi') : TextWithin source lo' hi' t :=
  ⟨Nat.le_trans hlo h.lo_le, Nat.le_trans h.le_hi hhi, h.ne_nil, h.holds⟩

mutual

/-- The texts of a node stand where their spans say, within the node. -/
theorem Node.Laid.texts {node : Node} (h : node.Laid source) :
    ∀ t ∈ node.texts, TextWithin source node.span.start node.span.stop t := by
  cases node with
  | text value span =>
    rw [Node.Laid] at h
    exact List.forall_mem_singleton.2 ⟨Nat.le_refl _, Nat.le_refl _, h.1, h.2⟩
  | comment value span => exact nofun
  | element e children =>
    rw [Node.Laid] at h
    obtain ⟨-, htagged, hended, hchildren⟩ := h
    have hbegins := htagged.begins
    have hproper := htagged.cuts.proper
    intro t ht
    refine (Laid.texts hchildren t ht).mono ?_ hended.contentsStop_le
    show e.span.start ≤ e.startSpan.stop
    omega

/-- The texts of siblings stand where their spans say, within their limits. -/
theorem Laid.texts {lo hi : Nat} {nodes : List Node} (h : Laid source lo hi nodes) :
    ∀ t ∈ textsOf nodes, TextWithin source lo hi t := by
  cases nodes with
  | nil => exact nofun
  | cons node nodes =>
    rw [Laid] at h
    obtain ⟨hstart, hnode, hnodes⟩ := h
    have hproper := hnode.cuts.proper
    refine List.forall_mem_append.2 ⟨fun t ht => ?_, fun t ht => ?_⟩
    · exact (hnode.texts t ht).mono hstart hnodes.le
    · exact (Laid.texts hnodes t ht).mono (by omega) (Nat.le_refl _)

end

mutual

/-- The start tags in a node stand where their spans say, within the node. -/
theorem Node.Laid.startTags {node : Node} (h : node.Laid source) :
    ∀ e ∈ node.elements, e.1.Tagged source ∧ node.span.start ≤ e.1.startSpan.start ∧
      e.1.startSpan.stop ≤ node.span.stop := by
  cases node with
  | text value span => exact nofun
  | comment value span => exact nofun
  | element e children =>
    rw [Node.Laid] at h
    obtain ⟨-, htagged, hended, hchildren⟩ := h
    have hbegins := htagged.begins
    have hproper := htagged.cuts.proper
    have hstop := hended.contentsStop_le
    have hinner := hchildren.le
    refine List.forall_mem_cons.2 ⟨⟨htagged, Nat.le_of_eq hbegins, ?_⟩, fun b hb => ?_⟩
    · exact Nat.le_trans hinner hstop
    · obtain ⟨hb, hlo, hhi⟩ := Laid.startTags hchildren b hb
      refine ⟨hb, ?_, Nat.le_trans hhi hstop⟩
      show e.span.start ≤ _
      omega

/-- The start tags in siblings stand where their spans say, within their limits. -/
theorem Laid.startTags {lo hi : Nat} {nodes : List Node} (h : Laid source lo hi nodes) :
    ∀ e ∈ elementsOf nodes, e.1.Tagged source ∧ lo ≤ e.1.startSpan.start ∧
      e.1.startSpan.stop ≤ hi := by
  cases nodes with
  | nil => exact nofun
  | cons node nodes =>
    rw [Laid] at h
    obtain ⟨hstart, hnode, hnodes⟩ := h
    have hle := hnodes.le
    have hproper := hnode.cuts.proper
    refine List.forall_mem_append.2 ⟨fun e he => ?_, fun e he => ?_⟩
    · obtain ⟨htagged, hlo, hhi⟩ := hnode.startTags e he
      exact ⟨htagged, by omega, by omega⟩
    · obtain ⟨htagged, hlo, hhi⟩ := Laid.startTags hnodes e he
      exact ⟨htagged, by omega, hhi⟩

end

/-- The texts are apart from each other, and from the start tags. -/
def TextsApart (texts : List (String × Span)) (elements : List (Element × List Node)) : Prop :=
  texts.Pairwise (fun s t => s.2.Apart t.2) ∧
    ∀ e ∈ elements, ∀ t ∈ texts, t.2.Apart e.1.startSpan

mutual

/-- In a node, texts are apart from each other and from the start tags. -/
theorem Node.Laid.textsApart {node : Node} (h : node.Laid source) :
    TextsApart node.texts node.elements := by
  cases node with
  | text value span => exact ⟨List.pairwise_singleton _ _, nofun⟩
  | comment value span => exact ⟨.nil, nofun⟩
  | element e children =>
    rw [Node.Laid] at h
    obtain ⟨-, -, -, hchildren⟩ := h
    obtain ⟨hpairs, htags⟩ := Laid.textsApart hchildren
    refine ⟨hpairs, List.forall_mem_cons.2 ⟨fun t ht => ?_, htags⟩⟩
    exact .inr (hchildren.texts t ht).lo_le

/-- In siblings, texts are apart from each other and from the start tags. -/
theorem Laid.textsApart {lo hi : Nat} {nodes : List Node} (h : Laid source lo hi nodes) :
    TextsApart (textsOf nodes) (elementsOf nodes) := by
  cases nodes with
  | nil => exact ⟨.nil, nofun⟩
  | cons node nodes =>
    rw [Laid] at h
    obtain ⟨hstart, hnode, hnodes⟩ := h
    obtain ⟨hpairs, htags⟩ := hnode.textsApart
    obtain ⟨hpairs', htags'⟩ := Laid.textsApart hnodes
    refine ⟨List.pairwise_append.2 ⟨hpairs, hpairs', fun s hs t ht => .inl ?_⟩, ?_⟩
    · exact Nat.le_trans (hnode.texts s hs).le_hi (hnodes.texts t ht).lo_le
    · refine List.forall_mem_append.2 ⟨fun e he => ?_, fun e he => ?_⟩
      · refine List.forall_mem_append.2 ⟨htags e he, fun t ht => .inr ?_⟩
        exact Nat.le_trans (hnode.startTags e he).2.2 (hnodes.texts t ht).lo_le
      · refine List.forall_mem_append.2 ⟨fun t ht => .inl ?_, htags' e he⟩
        exact Nat.le_trans (hnode.texts t ht).le_hi (hnodes.startTags e he).2.1

end

end Stencil.Markup
