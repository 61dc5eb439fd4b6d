import Stencil.Proofs.Markup.Layout

/-!
# What is in a draft

A tree is built from a draft: elements stay open on a stack, and are added to the tree when something
closes them. Statements about the tree of a source are shown of the draft piece by piece, so each
comes with the question what closing an element does to it. Three kinds of statement are treated here
once.

What is taken from the nodes of a draft, one after the other, the open elements included (`Harvest`),
is the same before and after (`Draft.harvest_closeInner`), unless it depends on where elements end
(`Draft.harvest_closeBy`). A property of nodes (`Draft.Each`) is kept while pieces are added if all
that they stand for has it, and a text put together of two has it: `forall_nodes_ofSource`. And no
text of a draft continues the text before it (`Parted`): the second is added to the first instead
(`Draft.Parted.addText`).

The last section says what closing does to the stack of open elements and to the problems found so
far: nothing but what it says.

**What it does not establish.** Nothing is said of what the pieces of a source are; that is
Proofs/Markup/Pieces.
-/

namespace Stencil.Markup

/-! ## Taking something from every node -/

/-- What to take from comments and elements. -/
structure Harvest (β : Type) where
  comment : String → Span → List β
  element : Element → List β

section

variable {β : Type} (f : Harvest β)

mutual

/-- What is taken from a node and all below it, in the order of the source. -/
def Node.harvest : Node → List β
  | .text .. => []
  | .comment value span => f.comment value span
  | .element e children => f.element e ++ harvestOf children

/-- What is taken from a forest. -/
def harvestOf : List Node → List β
  | [] => []
  | node :: nodes => node.harvest ++ harvestOf nodes

end

/-- What is taken from several nodes is taken from one after the other. -/
theorem harvestOf_eq_flatMap (nodes : List Node) : harvestOf f nodes = nodes.flatMap (·.harvest f) := by
  induction nodes with
  | nil => rfl
  | cons node nodes ih => rw [harvestOf, ih, List.flatMap_cons]

/-- One more node at the end. -/
theorem harvestOf_concat (nodes : List Node) (node : Node) :
    harvestOf f (nodes ++ [node]) = harvestOf f nodes ++ node.harvest f := by
  rw [harvestOf_eq_flatMap, harvestOf_eq_flatMap, List.flatMap_append, List.flatMap_singleton]

mutual

/-- What is taken from elements alone is taken from the elements of the node. -/
theorem Node.harvest_elements (g : Element → List β) :
    (node : Node) → node.harvest ⟨fun _ _ => [], g⟩ = node.elements.flatMap fun e => g e.1
  | .text .. | .comment .. => rfl
  | .element e children => by
    rw [Node.harvest, Node.elements, List.flatMap_cons, harvestOf_elements g children]

/-- What is taken from elements alone is taken from the elements of the forest. -/
theorem harvestOf_elements (g : Element → List β) :
    (nodes : List Node) → harvestOf ⟨fun _ _ => [], g⟩ nodes =
      (elementsOf nodes).flatMap fun e => g e.1
  | [] => rfl
  | node :: nodes => by
    rw [harvestOf, elementsOf, List.flatMap_append, Node.harvest_elements g node,
      harvestOf_elements g nodes]

end

/-- The elements of a forest are those of its nodes. -/
theorem mem_elementsOf {nodes : List Node} {e : Element × List Node} :
    e ∈ elementsOf nodes ↔ ∃ node ∈ nodes, e ∈ node.elements := by
  induction nodes with
  | nil => simp [elementsOf]
  | cons node nodes ih => simp [elementsOf, ih]

namespace Draft

/-- What is taken from all that a draft has, the open elements included. -/
def harvest (d : Draft) : List β :=
  harvestOf f d.roots.reverse ++ d.opened.reverse.flatMap fun e =>
    f.element e.element ++ harvestOf f e.contents.reverse

variable {f} {d : Draft}

/-- What is taken from a draft grows with the innermost contents. -/
theorem harvest_mapContents {g : List Node → List Node} {taken : List β}
    (h : ∀ contents : List Node, harvestOf f (g contents).reverse =
      harvestOf f contents.reverse ++ taken) :
    (d.mapContents g).harvest f = d.harvest f ++ taken := by
  unfold Draft.mapContents Draft.harvest
  cases hd : d.opened with
  | nil => simpa using h d.roots
  | cons e opened =>
    simp only [List.reverse_cons, List.flatMap_append, List.flatMap_singleton, List.append_assoc]
    rw [h]

/-- Adding a node adds what is taken from it. -/
theorem harvest_add (node : Node) : (d.add node).harvest f = d.harvest f ++ node.harvest f := by
  refine harvest_mapContents fun contents => ?_
  rw [List.reverse_cons, harvestOf_concat]

/-- Adding a text adds what is taken from texts, if anything. -/
theorem harvest_addText (value : String) (span : Span) :
    (d.addText value span).harvest f = d.harvest f := by
  have hmap : (d.addText value span).harvest f = d.harvest f ++ [] := by
    refine harvest_mapContents fun contents => ?_
    split
    · split <;> simp [harvestOf_eq_flatMap, Node.harvest]
    · simp [harvestOf_eq_flatMap, Node.harvest]
  rw [hmap, List.append_nil]

/-- What is taken from a draft, apart from its innermost open element. -/
theorem harvest_opened {e : OpenElement} {opened : List OpenElement} (hd : d.opened = e :: opened) :
    d.harvest f = ({ d with opened := opened } : Draft).harvest f ++
      (f.element e.element ++ harvestOf f e.contents.reverse) := by
  simp [Draft.harvest, hd]

/-- Opening an element adds what is taken from it. -/
theorem harvest_open (e : Element) :
    ({ d with opened := ⟨e, []⟩ :: d.opened } : Draft).harvest f = d.harvest f ++ f.element e := by
  have hopened : ({ d with opened := ⟨e, []⟩ :: d.opened } : Draft).opened = ⟨e, []⟩ :: d.opened := rfl
  rw [harvest_opened hopened]
  exact congrArg _ (List.append_nil _)

/-- Closing elements keeps what is taken, unless it depends on where elements end. -/
theorem harvest_closeInner (hf : ∀ e stop, f.element { e with span := ⟨e.span.start, stop⟩ } =
      f.element e) (stop count : Nat) (d : Draft) :
    (d.closeInner stop count).harvest f = d.harvest f := by
  induction count generalizing d with
  | zero => rfl
  | succ count ih =>
    rw [Draft.closeInner]
    cases hd : d.opened with
    | nil => rfl
    | cons e opened =>
      dsimp only
      rw [ih, harvest_add, OpenElement.close, Node.harvest, hf, ← harvest_opened hd]

/-- What is taken once an end tag has closed the innermost element. -/
theorem harvest_closeBy {e : OpenElement} {opened : List OpenElement} (hd : d.opened = e :: opened)
    (tag : Span) : (d.closeBy tag).harvest f =
      ({ d with opened := opened } : Draft).harvest f ++
        (f.element { e.element with span := ⟨e.element.span.start, tag.stop⟩, endSpan := some tag } ++
          harvestOf f e.contents.reverse) := by
  rw [Draft.closeBy, hd]
  dsimp only
  rw [harvest_add, OpenElement.closeBy, Node.harvest]

end Draft

end

/-! ## What holds of all nodes -/

section

variable {P : Node → Prop}

/-- The nodes of the draft have the property. So has every open element once something closes it, whatever
contents with the property it has by then. -/
def Draft.Each (P : Node → Prop) (d : Draft) : Prop :=
  (∀ node ∈ d.roots, P node) ∧ ∀ o ∈ d.opened, (∀ node ∈ o.contents, P node) ∧
    ∀ span endSpan children, (∀ node ∈ children, P node) →
      P (.element { o.element with span, endSpan } children)

/-- What the piece stands for has the property. -/
def Piece.Each (P : Node → Prop) : Piece → Prop
  | .text value span => P (.text (String.ofList value) span)
  | .comment value span => P (.comment (String.ofList value) span)
  | .element node => P node
  | .startTag name attributes startSpan => ∀ span endSpan children, (∀ node ∈ children, P node) →
    P (.element { name, attributes, span, startSpan, endSpan } children)
  | .endTag .. | .problem _ => True

/-- Two texts that touch have the property as one text if each has it. -/
def Joins (P : Node → Prop) : Prop := ∀ (a b : String) (s t : Span), P (.text a s) → P (.text b t) →
  s.stop = t.start → P (.text (a ++ b) ⟨s.start, t.stop⟩)

variable {d : Draft}

/-- Changed innermost contents keep the property if the change does. -/
theorem Draft.Each.mapContents {f : List Node → List Node} (h : d.Each P)
    (hf : ∀ contents, (∀ node ∈ contents, P node) → ∀ node ∈ f contents, P node) :
    (d.mapContents f).Each P := by
  obtain ⟨hroots, hopened⟩ := h
  unfold Draft.mapContents
  cases hd : d.opened with
  | nil => exact ⟨hf _ hroots, nofun⟩
  | cons o os =>
    rw [hd, List.forall_mem_cons] at hopened
    obtain ⟨⟨hcontents, hclosed⟩, hothers⟩ := hopened
    exact ⟨hroots, List.forall_mem_cons.2 ⟨⟨hf _ hcontents, hclosed⟩, hothers⟩⟩

/-- A node that has the property can be added. -/
theorem Draft.Each.add {node : Node} (h : d.Each P) (hnode : P node) : (d.add node).Each P :=
  h.mapContents fun _ hcontents => List.forall_mem_cons.2 ⟨hnode, hcontents⟩

/-- A text that continues another one is put together with it. -/
theorem Draft.Each.addText (hjoins : Joins P) (h : d.Each P) {value : String} {span : Span}
    (htext : P (.text value span)) : (d.addText value span).Each P := by
  refine h.mapContents fun contents hcontents => ?_
  split
  · next earlier earlierSpan nodes =>
    obtain ⟨hearlier, hnodes⟩ := List.forall_mem_cons.1 hcontents
    split
    · next htouch =>
      exact List.forall_mem_cons.2 ⟨hjoins _ _ _ _ hearlier htext htouch, hnodes⟩
    · exact List.forall_mem_cons.2 ⟨htext, hcontents⟩
  · exact List.forall_mem_cons.2 ⟨htext, hcontents⟩

/-- Closing the innermost element makes a node of it. -/
theorem Draft.Each.closed {o : OpenElement} {os : List OpenElement} (h : d.Each P)
    (hd : d.opened = o :: os) (span : Span) (endSpan : Option Span) :
    (({ d with opened := os } : Draft).add
      (.element { o.element with span, endSpan } o.contents.reverse)).Each P := by
  obtain ⟨hroots, hopened⟩ := h
  rw [hd, List.forall_mem_cons] at hopened
  obtain ⟨⟨hcontents, hclosed⟩, hothers⟩ := hopened
  have hrest : ({ d with opened := os } : Draft).Each P := ⟨hroots, hothers⟩
  exact hrest.add (hclosed _ _ _ fun node hnode => hcontents node (List.mem_reverse.1 hnode))

/-- Closing elements keeps the property. -/
theorem Draft.Each.closeInner (h : d.Each P) (stop count : Nat) : (d.closeInner stop count).Each P := by
  induction count generalizing d with
  | zero => exact h
  | succ count ih =>
    rw [Draft.closeInner]
    cases hd : d.opened with
    | nil => exact h
    | cons o os => exact ih (h.closed hd _ _)

/-- An end tag keeps the property. -/
theorem Draft.Each.closeBy (h : d.Each P) (tag : Span) : (d.closeBy tag).Each P := by
  rw [Draft.closeBy]
  cases hd : d.opened with
  | nil => exact h
  | cons o os => exact h.closed hd _ _

/-- A piece keeps the property if all that it stands for has it. -/
theorem Draft.Each.push {p : Piece} (hjoins : Joins P) (h : d.Each P) (hp : p.Each P) :
    (d.push p).Each P := by
  cases p with
  | text value span => exact h.addText hjoins hp
  | comment value span => exact h.add hp
  | element node => exact h.add hp
  | problem error => exact h
  | startTag name attributes span => exact ⟨h.1, List.forall_mem_cons.2 ⟨⟨nofun, hp⟩, h.2⟩⟩
  | endTag name span =>
    simp only [Draft.push]
    split
    · exact (h.closeInner _ _).closeBy _
    · exact h

/-- What holds of all that the pieces of a source stand for, and of texts put together, holds of the nodes
of its tree. -/
theorem forall_nodes_ofSource {source : List Char} (hjoins : Joins P)
    (hpieces : ∀ p ∈ pieces source, p.Each P) : ∀ node ∈ (Tree.ofSource source).nodes, P node := by
  have hpushed (ps : List Piece) (hps : ∀ p ∈ ps, p.Each P) (d : Draft) (hd : d.Each P) :
      (ps.foldl Draft.push d).Each P := by
    induction ps generalizing d with
    | nil => exact hd
    | cons p ps ih =>
      obtain ⟨hp, hps⟩ := List.forall_mem_cons.1 hps
      exact ih hps _ (hd.push hjoins hp)
  have hall := (hpushed _ hpieces {} ⟨nofun, nofun⟩).closeInner (Text.byteSize source)
  exact fun node hnode => (hall _).1 node (List.mem_reverse.1 hnode)

end

/-! ## Texts that are not separated -/

/-- A text, and a text that starts where it ends. -/
def Node.Continues (earlier later : Node) : Prop :=
  ∃ value span value' span', earlier = .text value span ∧ later = .text value' span' ∧
    span.stop = span'.start

mutual

/-- Below the node no text continues the text before it. -/
def Node.Parted : Node → Prop
  | .element _ children => Parted children
  | .text .. | .comment .. => True

/-- No text continues the text before it, neither among the nodes nor below them. -/
def Parted : List Node → Prop
  | [] => True
  | node :: nodes =>
    node.Parted ∧ (∀ next, nodes.head? = some next → ¬ node.Continues next) ∧ Parted nodes

end

/-- One more node at the end must not continue the last one. -/
theorem parted_concat {nodes : List Node} {node : Node} : Parted (nodes ++ [node]) ↔
    Parted nodes ∧ node.Parted ∧ ∀ last, nodes.getLast? = some last → ¬ last.Continues node := by
  induction nodes with
  | nil => simp [Parted]
  | cons first nodes ih =>
    rw [List.cons_append, Parted, Parted, ih]
    cases nodes with
    | nil => simp [Parted, and_comm]
    | cons second nodes =>
      simp only [List.cons_append, List.head?_cons, List.getLast?_cons_cons, and_assoc]

/-- A node is added in front of the contents that are kept with the newest first. -/
theorem parted_reverse_cons {node : Node} {contents : List Node} :
    Parted (node :: contents).reverse ↔ Parted contents.reverse ∧ node.Parted ∧
      ∀ last, contents.head? = some last → ¬ last.Continues node := by
  rw [List.reverse_cons, parted_concat, List.getLast?_reverse]

/-- An element continues nothing. -/
theorem Node.not_continues_element {node : Node} {e : Element} {children : List Node} :
    ¬ node.Continues (.element e children) := by
  rintro ⟨_, _, _, _, -, h, -⟩
  cases h

namespace Draft

variable {d : Draft}

/-- No text in a draft continues the text before it. -/
def Parted (d : Draft) : Prop :=
  Markup.Parted d.roots.reverse ∧ ∀ e ∈ d.opened, Markup.Parted e.contents.reverse

/-- Changed innermost contents stay parted if the change keeps them so. -/
theorem Parted.mapContents {f : List Node → List Node} (h : d.Parted)
    (hf : ∀ contents, Markup.Parted contents.reverse → Markup.Parted (f contents).reverse) :
    (d.mapContents f).Parted := by
  obtain ⟨hroots, hopened⟩ := h
  unfold Draft.mapContents
  cases hd : d.opened with
  | nil => exact ⟨hf _ hroots, by simp⟩
  | cons e es =>
    rw [hd, List.forall_mem_cons] at hopened
    exact ⟨hroots, List.forall_mem_cons.2 ⟨hf _ hopened.1, hopened.2⟩⟩

/-- A node that continues nothing can be added. -/
theorem Parted.add {node : Node} (h : d.Parted) (hnode : node.Parted)
    (hlast : ∀ last : Node, ¬ last.Continues node) : (d.add node).Parted :=
  h.mapContents fun _ hcontents => parted_reverse_cons.2 ⟨hcontents, hnode, fun last _ => hlast last⟩

/-- A text that continues another one becomes one text with it. -/
theorem Parted.addText (h : d.Parted) (value : String) (span : Span) :
    (d.addText value span).Parted := by
  refine h.mapContents fun contents hcontents => ?_
  split
  · next earlier earlierSpan nodes =>
    obtain ⟨hnodes, -, hbefore⟩ := parted_reverse_cons.1 hcontents
    split
    · refine parted_reverse_cons.2 ⟨hnodes, trivial, fun last hlast => ?_⟩
      rintro ⟨value', span', _, _, rfl, heq, htouch⟩
      cases heq
      exact hbefore _ hlast ⟨value', span', earlier, earlierSpan, rfl, rfl, htouch⟩
    · next hapart =>
      refine parted_reverse_cons.2 ⟨hcontents, trivial, fun last hlast => ?_⟩
      obtain rfl := Option.some.inj hlast
      rintro ⟨_, _, _, _, heq, heq', htouch⟩
      cases heq
      cases heq'
      exact hapart htouch
  · next hnotext =>
    refine parted_reverse_cons.2 ⟨hcontents, trivial, fun last hlast => ?_⟩
    rintro ⟨value', span', _, _, rfl, -, -⟩
    obtain ⟨rest, rfl⟩ := List.head?_eq_some_iff.1 hlast
    exact hnotext _ _ _ rfl

/-- Closing elements keeps texts parted. -/
theorem Parted.closeInner (h : d.Parted) (stop count : Nat) : (d.closeInner stop count).Parted := by
  induction count generalizing d with
  | zero => exact h
  | succ count ih =>
    rw [Draft.closeInner]
    cases hd : d.opened with
    | nil => exact h
    | cons e es =>
      obtain ⟨hroots, hopened⟩ := h
      rw [hd, List.forall_mem_cons] at hopened
      have hrest : ({ d with opened := es } : Draft).Parted := ⟨hroots, hopened.2⟩
      exact ih (hrest.add hopened.1 fun _ => Node.not_continues_element)

/-- An end tag keeps texts parted. -/
theorem Parted.closeBy (h : d.Parted) (tag : Span) : (d.closeBy tag).Parted := by
  rw [Draft.closeBy]
  cases hd : d.opened with
  | nil => exact h
  | cons e es =>
    obtain ⟨hroots, hopened⟩ := h
    rw [hd, List.forall_mem_cons] at hopened
    have hrest : ({ d with opened := es } : Draft).Parted := ⟨hroots, hopened.2⟩
    exact hrest.add hopened.1 fun _ => Node.not_continues_element

end Draft

/-! ## Open elements -/

namespace Draft

variable {d : Draft}

/-- The open elements without their contents, the innermost first. -/
def openElements (d : Draft) : List Element := d.opened.map (·.element)

/-- Changing contents opens and closes nothing. -/
theorem openElements_mapContents (f : List Node → List Node) :
    (d.mapContents f).openElements = d.openElements := by
  unfold Draft.mapContents Draft.openElements
  cases hd : d.opened with
  | nil => simp
  | cons e es => simp

/-- Changing contents reports nothing. -/
theorem errors_mapContents (f : List Node → List Node) : (d.mapContents f).errors = d.errors := by
  unfold Draft.mapContents
  split <;> rfl

/-- Closing elements takes as many from the stack. -/
theorem openElements_closeInner (stop count : Nat) (d : Draft) :
    (d.closeInner stop count).openElements = d.openElements.drop count := by
  induction count generalizing d with
  | zero => rfl
  | succ count ih =>
    rw [Draft.closeInner]
    cases hd : d.opened with
    | nil => simp [Draft.openElements, hd]
    | cons e es =>
      dsimp only
      rw [ih, Draft.add, openElements_mapContents]
      simp [Draft.openElements, hd]

/-- Closing elements reports nothing. -/
theorem errors_closeInner (stop count : Nat) (d : Draft) :
    (d.closeInner stop count).errors = d.errors := by
  induction count generalizing d with
  | zero => rfl
  | succ count ih =>
    rw [Draft.closeInner]
    split
    · rfl
    · rw [ih, Draft.add, errors_mapContents]

/-- An end tag takes the innermost element from the stack. -/
theorem openElements_closeBy (tag : Span) : (d.closeBy tag).openElements = d.openElements.tail := by
  rw [Draft.closeBy]
  cases hd : d.opened with
  | nil => simp [Draft.openElements, hd]
  | cons e es =>
    dsimp only
    rw [Draft.add, openElements_mapContents]
    simp [Draft.openElements, hd]

/-- An end tag that closes an element reports nothing. -/
theorem errors_closeBy (tag : Span) : (d.closeBy tag).errors = d.errors := by
  rw [Draft.closeBy]
  split
  · rfl
  · rw [Draft.add, errors_mapContents]

end Draft

end Stencil.Markup
