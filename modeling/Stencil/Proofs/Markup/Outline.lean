import Stencil.Markup.Tree
import Stencil.Proofs.Markup.Refill

/-!
# Outlines and new texts

The outline of a tree is the tree without its spans: what two sources have in common when they are
read alike. `outlines` takes it with two functions, one for the values of attributes and one for the texts,
so that a tree can be compared with another one in which these are different; `Tree.outline` leaves
both as they are.

`NewTexts` says which attribute values and which insides of markers get new texts. It determines the
edits of the source (`editsOf`) and, through `NewTexts.valueOf`, the outline that the tree should have
afterwards. `NewTexts.Fit` says that the new texts can stand where they are put: an attribute value
must not hold its own quote, an inside must be one, and none of them ends a marker or starts a tag in
one.

The edits are those of the attributes and of the texts of a forest, wherever these stand in it:
`mem_editsOf` lists them without looking at the nesting. `value_eq_of_outlines` reads the values back:
the outlines of a forest show them.

**What it does not establish.** Here stands only what is compared. That a source with its edits
applied is read as the outline it should have is Proofs/Markup/Reread.
-/

namespace Stencil.Markup

/-- An attribute without its spans. -/
structure AttributeOutline where
  name : String
  quote : Option Char
  /-- The value, if there is one. -/
  value? : Option String
  deriving DecidableEq, Repr

/-- A node without its spans. -/
inductive Outline
  | text (value : String)
  | comment (value : String)
  | element (name : String) (attributes : List AttributeOutline) (children : List Outline)
  deriving Repr

section

variable (value : Attribute → String) (text : Nat → List Char → List Char)

/-- The outline of an attribute, with the value that `value` has for it. -/
def Attribute.outline (a : Attribute) : AttributeOutline :=
  ⟨a.name, a.quote, a.valueSpan.map fun _ => value a⟩

mutual

/-- The outline of a node, with the values that `value` has for its attributes and what `text` makes
of its texts and where they start. -/
def Node.outline : Node → Outline
  | .text t span => .text (String.ofList (text span.start t.toList))
  | .comment t _ => .comment t
  | .element e children => .element e.name (e.attributes.map (·.outline value)) (outlines children)

/-- The outlines of the nodes. -/
def outlines : List Node → List Outline
  | [] => []
  | node :: nodes => node.outline :: outlines nodes

end

/-- The outlines of several nodes. -/
theorem outlines_eq_map (nodes : List Node) :
    outlines value text nodes = nodes.map (Node.outline value text) := by
  induction nodes with
  | nil => rfl
  | cons node nodes ih => rw [outlines, ih, List.map_cons]

end

/-- The outline of a tree as it is. -/
def Tree.outline (tree : Tree) : List Outline := outlines (·.value) (fun _ t => t) tree.nodes

/-- New texts for attribute values and for the insides of markers, as they are to be written. -/
structure NewTexts where
  value : Attribute → Option (List Char)
  inside : Span → Option (List Char)

/-- What can be written as an attribute value: no quote inside of quotes, and nothing that would end
an unquoted value, or make it a quoted one. -/
def FitsQuote : Option Char → List Char → Prop
  | some q, t => Text.isQuote q = true → q ∉ t
  | none, t => t ≠ [] ∧ (∀ c ∈ t, Text.isBlank c = false ∧ c ≠ '>') ∧
    ∀ q, t.head? = some q → Text.isQuote q = false

namespace NewTexts

variable (new : NewTexts)

/-- The new texts can stand where they are put, and none of them ends a marker or, in a marker, starts
a tag. -/
structure Fit : Prop where
  quotes : ∀ a t, new.value a = some t → FitsQuote a.quote t
  values : ∀ a t, new.value a = some t → ¬ ['\x7d', '\x7d'] <:+: t
  insides : Fills new.inside
  tags : ∀ span t, new.inside span = some t → '<' ∉ t

/-- The value of an attribute afterwards. -/
def valueOf (a : Attribute) : String :=
  ((new.value a).map fun t => String.ofList (decodeReferences t)).getD a.value

/-- What changes in an attribute. -/
def edits (a : Attribute) : List Edit :=
  match a.valueSpan, new.value a with
  | some span, some t => [⟨span, t⟩]
  | _, _ => []

end NewTexts

mutual

/-- What changes in a node. -/
def Node.edits (new : NewTexts) : Node → List Edit
  | .text t span => fillEdits new.inside span.start t.toList
  | .comment .. => []
  | .element e children => e.attributes.flatMap new.edits ++ editsOf new children

/-- What changes in the nodes. -/
def editsOf (new : NewTexts) : List Node → List Edit
  | [] => []
  | node :: nodes => node.edits new ++ editsOf new nodes

end

/-- The edits of several nodes, one after the other. -/
theorem editsOf_eq_flatMap (new : NewTexts) (nodes : List Node) :
    editsOf new nodes = nodes.flatMap (·.edits new) := by
  induction nodes with
  | nil => rfl
  | cons node nodes ih => rw [editsOf, ih, List.flatMap_cons]

/-! ## The attributes and the texts of a forest -/

mutual

/-- The attributes of a node and below it. -/
def Node.attributes : Node → List Attribute
  | .element e children => e.attributes ++ attributesOf children
  | .text .. | .comment .. => []

/-- The attributes of the nodes and below them. -/
def attributesOf : List Node → List Attribute
  | [] => []
  | node :: nodes => node.attributes ++ attributesOf nodes

end

mutual

/-- The texts at a node and below it. -/
def Node.texts : Node → List (String × Span)
  | .text value span => [(value, span)]
  | .comment .. => []
  | .element _ children => textsOf children

/-- The texts among the nodes and below them. -/
def textsOf : List Node → List (String × Span)
  | [] => []
  | node :: nodes => node.texts ++ textsOf nodes

end

section

variable {new : NewTexts} {e : Edit}

/-- Where an edit of a forest comes from: an attribute or a text. -/
def NewTexts.Makes (new : NewTexts) (attributes : List Attribute) (texts : List (String × Span))
    (e : Edit) : Prop :=
  (∃ a ∈ attributes, e ∈ new.edits a) ∨
    ∃ t ∈ texts, e ∈ fillEdits new.inside t.2.start t.1.toList

/-- The edits of two lists are those of the first and those of the second. -/
theorem NewTexts.makes_append {as bs : List Attribute} {ss ts : List (String × Span)} :
    new.Makes (as ++ bs) (ss ++ ts) e ↔ new.Makes as ss e ∨ new.Makes bs ts e := by
  unfold NewTexts.Makes
  simp only [List.mem_append, or_and_right, exists_or]
  exact or_or_or_comm

mutual

/-- The edits of a node are those of its attributes and its texts. -/
theorem Node.mem_edits (node : Node) : e ∈ node.edits new ↔ new.Makes node.attributes node.texts e := by
  cases node with
  | text value span => simp [Node.edits, Node.attributes, Node.texts, NewTexts.Makes]
  | comment value span => simp [Node.edits, Node.attributes, Node.texts, NewTexts.Makes]
  | element el children =>
    rw [Node.edits, Node.attributes, Node.texts, List.mem_append, List.mem_flatMap,
      ← List.nil_append (textsOf children), NewTexts.makes_append, mem_editsOf children]
    simp [NewTexts.Makes]

/-- The edits of a forest are those of its attributes and its texts. -/
theorem mem_editsOf (nodes : List Node) :
    e ∈ editsOf new nodes ↔ new.Makes (attributesOf nodes) (textsOf nodes) e := by
  cases nodes with
  | nil => simp [editsOf, attributesOf, textsOf, NewTexts.Makes]
  | cons node nodes =>
    rw [editsOf, attributesOf, textsOf, List.mem_append, NewTexts.makes_append, node.mem_edits,
      mem_editsOf nodes]

end

/-- The edits of a text are those of its markers that get a new text. -/
theorem mem_fillEdits {fill : Span → Option (List Char)} {start : Nat} {text : List Char} :
    e ∈ fillEdits fill start text ↔
      ∃ m ∈ markers text, fill (m.span start) = some e.text ∧ e.span = m.span start := by
  have hshift := markersFrom_shift start 0 0 text
  have hspan (m : Marker) : Marker.span ⟨start + m.start, m.inside⟩ 0 = m.span start := by
    simp [Marker.span]
  rw [Nat.add_zero] at hshift
  rw [fillEdits, hshift, List.filterMap_map]
  simp only [List.mem_filterMap, Function.comp_apply, hspan, Option.map_eq_some_iff]
  constructor
  · rintro ⟨m, hm, t, hfill, rfl⟩
    exact ⟨m, hm, hfill, rfl⟩
  · rintro ⟨m, hm, hfill, hspan⟩
    exact ⟨m, hm, e.text, hfill, by rw [← hspan]⟩

/-- The edit of an attribute replaces its value. -/
theorem NewTexts.mem_edits {a : Attribute} :
    e ∈ new.edits a ↔ a.valueSpan = some e.span ∧ new.value a = some e.text := by
  obtain ⟨span, text⟩ := e
  unfold NewTexts.edits
  cases a.valueSpan <;> cases new.value a <;> simp [eq_comm]

end

section

variable {value value' : Attribute → String} {text : Nat → List Char → List Char}

mutual

/-- The outline of a node shows the values of its attributes. -/
theorem Node.value_eq_of_outline {node : Node} (h : node.outline value text = node.outline value' text) :
    ∀ a ∈ node.attributes, a.valueSpan.isSome → value a = value' a := by
  cases node with
  | text t span => simp [Node.attributes]
  | comment t span => simp [Node.attributes]
  | element e children =>
    rw [Node.outline, Node.outline, Outline.element.injEq] at h
    obtain ⟨-, hattributes, hchildren⟩ := h
    intro a ha hspan
    rw [Node.attributes, List.mem_append] at ha
    rcases ha with ha | ha
    · have heq := congrArg AttributeOutline.value? (List.map_inj_left.1 hattributes a ha)
      obtain ⟨span, hspan⟩ := Option.isSome_iff_exists.1 hspan
      simpa [Attribute.outline, hspan] using heq
    · exact value_eq_of_outlines hchildren a ha hspan

/-- The outlines of a forest show the values of its attributes. -/
theorem value_eq_of_outlines {nodes : List Node}
    (h : outlines value text nodes = outlines value' text nodes) :
    ∀ a ∈ attributesOf nodes, a.valueSpan.isSome → value a = value' a := by
  cases nodes with
  | nil => simp [attributesOf]
  | cons node nodes =>
    rw [outlines, outlines] at h
    obtain ⟨hnode, hnodes⟩ := List.cons.inj h
    intro a ha
    rw [attributesOf, List.mem_append] at ha
    rcases ha with ha | ha
    · exact Node.value_eq_of_outline hnode a ha
    · exact value_eq_of_outlines hnodes a ha

end

end

end Stencil.Markup
