import Stencil.Proofs.Markup.Harvest
import Stencil.Proofs.Markup.Reread
import Stencil.Proofs.Markup.Written

/-!
# Reading what was written

**The law** (`ofSource_writeAll`): a forest that is written as markup is read as the same forest,
without a problem: the same elements with the same names, attributes and values, the same texts and
comments, in the same order and nesting. `Written` (Proofs/Markup/Written) is a forest with how it is
spelled, the case of its end tags and the quotes of its values included; the law holds for all that
can be written (`LegibleAll`).

Whatever draft there is when the reading comes to the text of some nodes, behind that text their
outlines are added to it, and nothing is reported (`Reads`, `Draft.Adds`). So the text of a whole
element can stand anywhere: its start tag opens an element, what is between the tags adds to that one
alone, and its end tag finds it innermost (`adds_element`). Only a text depends on the draft, as it
would continue a text before it (`DraftOutline.Fresh`); in a forest that can be written no text stands
behind a text. `reads_write` and `reads_writeAll` are the mutual induction over the forest.

**What it does not establish.** Markup that is read with problems is not written by any forest.
-/

namespace Stencil.Markup

/-! ## Adding nodes to a draft -/

namespace DraftOutline

/-- Adds the nodes, one after the other. -/
def addAll (nodes : List Outline) (d : DraftOutline) : DraftOutline :=
  nodes.foldl (fun d node => d.add node) d

theorem addAll_append (nodes later : List Outline) (d : DraftOutline) :
    d.addAll (nodes ++ later) = (d.addAll nodes).addAll later := List.foldl_append

/-- Nodes are added to the innermost open element. -/
theorem addAll_opened (nodes : List Outline) (e : OpenOutline) (es : List OpenOutline)
    (roots : List Outline) : addAll nodes ⟨e :: es, roots⟩ =
      ⟨{ e with contents := nodes.reverse ++ e.contents } :: es, roots⟩ := by
  induction nodes generalizing e with
  | nil => rfl
  | cons node nodes ih =>
    rw [List.reverse_cons, List.append_assoc]
    exact ih { e with contents := node :: e.contents }

/-- Nodes are added to the roots when nothing is open. -/
theorem addAll_roots (nodes roots : List Outline) :
    addAll nodes ⟨[], roots⟩ = ⟨[], nodes.reverse ++ roots⟩ := by
  induction nodes generalizing roots with
  | nil => rfl
  | cons node nodes ih =>
    rw [List.reverse_cons, List.append_assoc]
    exact ih (node :: roots)

/-- A node that is added is the newest of the contents. -/
theorem contents_add (node : Outline) (d : DraftOutline) :
    (d.add node).contents = node :: d.contents := by
  unfold add setContents contents
  cases d.opened <;> rfl

/-- The newest node is not a text, so that a text does not continue it. -/
def Fresh (d : DraftOutline) : Prop := ∀ t, d.contents.head? ≠ some (.text t)

/-- Behind a node that is no text, a text is a node of its own. -/
theorem fresh_add {node : Outline} (h : ∀ t, node ≠ .text t) (d : DraftOutline) :
    (d.add node).Fresh := by
  intro t htext
  rw [contents_add, List.head?_cons] at htext
  exact h t (Option.some.inj htext)

end DraftOutline

namespace Draft

/-- The draft without spans and problems, with its values and texts as they are. -/
def plain (d : Draft) : DraftOutline := d.outline (·.value) fun _ t => t

/-- The second draft is the first one with the nodes added, and with nothing reported. -/
structure Adds (d : Draft) (nodes : List Outline) (d' : Draft) : Prop where
  plain : d'.plain = d.plain.addAll nodes
  errors : d'.errors = d.errors

variable {d d' d'' : Draft} {nodes later : List Outline}

theorem Adds.trans (h : d.Adds nodes d') (h' : d'.Adds later d'') : d.Adds (nodes ++ later) d'' :=
  ⟨by rw [h'.plain, h.plain, DraftOutline.addAll_append], h'.errors.trans h.errors⟩

/-- Adding a node adds its outline. -/
theorem adds_add (node : Node) (d : Draft) :
    d.Adds [node.outline (·.value) fun _ t => t] (d.add node) :=
  ⟨outline_add node, errors_mapContents _⟩

/-- A text that continues no other one is a node of its own. -/
theorem adds_text (h : d.plain.Fresh) (value : List Char) (span : Span) :
    d.Adds [.text (String.ofList value)] (d.push (.text value span)) := by
  have hapart : Apart span.start d.contents := by
    intro t earlier htext
    refine absurd ?_ (h t)
    rw [plain, contents_outline, List.head?_map, htext]
    simp [Node.outline]
  have hadds := adds_add (.text (String.ofList value) span) d
  rw [Node.outline, String.toList_ofList] at hadds
  rwa [Draft.push, addText_apart hapart]

/-- An element is added by its tags, if what is read between them adds its children. -/
theorem adds_element {name endName : String} {attributes : List Attribute} (span endSpan : Span)
    (hname : Text.sameIgnoringCase name endName = true)
    (hchildren : (d.push (.startTag name attributes span)).Adds nodes d') :
    d.Adds [.element name (attributes.map (·.outline (·.value))) nodes]
      (d'.push (.endTag endName endSpan)) := by
  have hopened : d'.plain =
      ⟨⟨name, attributes.map (·.outline (·.value)), nodes.reverse ++ []⟩ :: d.plain.opened,
        d.plain.roots⟩ :=
    hchildren.plain.trans (DraftOutline.addAll_opened nodes _ _ _)
  have hinnermost :
      d'.opened.findIdx? (fun e => Text.sameIgnoringCase e.element.name endName) = some 0 := by
    rw [findIdx?_outline fun name => Text.sameIgnoringCase name endName]
    show d'.plain.opened.findIdx? _ = _
    rw [hopened, List.findIdx?_cons, if_pos hname]
  have hpush : d'.push (.endTag endName endSpan) = d'.closeBy endSpan := by
    rw [push, hinnermost]
    rfl
  have hplain : (d'.closeBy endSpan).plain = d'.plain.close 1 := outline_closeBy endSpan
  have hclosed : d'.plain.close 1 =
      d.plain.add (.element name (attributes.map (·.outline (·.value))) nodes) := by
    rw [hopened, List.append_nil]
    show d.plain.add (.element name _ nodes.reverse.reverse) = _
    rw [List.reverse_reverse]
  rw [hpush]
  exact ⟨hplain.trans hclosed, (errors_closeBy endSpan).trans hchildren.errors⟩

end Draft

/-! ## Nodes at the front of the unread text -/

section

variable {node : Written} {nodes : List Written} {rest : List Char}

/-- A node that is no text has no outline of a text. -/
theorem Written.outline_ne_text (h : node.isText = false) (t : String) : node.outline ≠ .text t := by
  cases node with
  | text value => cases h
  | comment value => exact nofun
  | complete tag selfClosed => exact nofun
  | element tag children endName => exact nofun

/-- A text ends in front of a start tag. -/
theorem endsText_tag (h : startsWithLetter rest = true) : EndsText ('<' :: rest) := by
  cases rest with
  | nil => cases h
  | cons c rest =>
    have hletter : Text.isLetter c = true := h
    exact .inr (by simp [mayStartMarkup, hletter])

/-- A text ends in front of a node that is none. -/
theorem Written.Legible.endsText (h : node.Legible) (hmarkup : node.isText = false) :
    EndsText (node.write ++ rest) := by
  have htag {tag : WrittenTag} (htag : tag.Legible) (selfClosed : Bool) (rest : List Char) :
      EndsText ('<' :: (tag.write selfClosed ++ rest)) := by
    obtain ⟨hcut, -⟩ := htag.read 0 [] selfClosed
    rw [WrittenTag.write, List.append_assoc]
    exact endsText_tag (hcut.letter _)
  cases node with
  | text value => cases hmarkup
  | comment value => exact .inr rfl
  | complete tag selfClosed => exact htag h.1 selfClosed rest
  | element tag children endName =>
    rw [Written.write, List.cons_append, List.append_assoc]
    exact htag h.1 false _

/-- A text ends in front of nodes of which the first is no text. -/
theorem LegibleAll.endsText (h : LegibleAll nodes)
    (hmarkup : ∀ first ∈ nodes.head?, first.isText = false) (hrest : EndsText rest) :
    EndsText (writeAll nodes ++ rest) := by
  cases nodes with
  | nil => exact hrest
  | cons node nodes =>
    rw [writeAll, List.append_assoc]
    exact h.1.endsText (hmarkup node rfl)

end

/-- From `cs` up to `rest`, the nodes are read into the draft. -/
def Reads (size : Nat) (d : Draft) (cs : List Char) (nodes : List Outline) (rest : List Char) : Prop :=
  ∃ d', d.Adds nodes d' ∧
    (piecesFrom size cs).foldl Draft.push d = (piecesFrom size rest).foldl Draft.push d'

/-- Nodes that are read one list after the other. -/
theorem Reads.trans {size : Nat} {d : Draft} {cs behind rest : List Char}
    {nodes later : List Outline} (h : Reads size d cs nodes behind)
    (h' : ∀ d', d.Adds nodes d' → Reads size d' behind later rest) :
    Reads size d cs (nodes ++ later) rest := by
  obtain ⟨d', hadds, hread⟩ := h
  obtain ⟨d'', hadds', hread'⟩ := h' d' hadds
  exact ⟨d'', hadds.trans hadds', hread.trans hread'⟩

mutual

/-- What is written of a node is read as the node. -/
theorem reads_write (size : Nat) : ∀ (node : Written) (d : Draft) (rest : List Char), node.Legible →
    (node.isText = true → d.plain.Fresh ∧ EndsText rest) →
    Reads size d (node.write ++ rest) [node.outline] rest
  | .text value, d, rest, ⟨hne, hopen, hbraces⟩, htext => by
    obtain ⟨hfresh, hrest⟩ := htext rfl
    obtain ⟨span, hpieces⟩ := piecesFrom_text size hne hopen hbraces hrest
    exact ⟨_, Draft.adds_text hfresh value span, by rw [Written.write, hpieces, List.foldl_cons]⟩
  | .comment value, d, rest, h, _ => by
    obtain ⟨span, hpieces⟩ := piecesFrom_comment size rest h
    exact ⟨_, Draft.adds_add (.comment (String.ofList value) span) d,
      congrArg (List.foldl Draft.push d) hpieces⟩
  | .complete tag selfClosed, d, rest, ⟨htag, hcomplete⟩, _ => by
    obtain ⟨e, hpieces, houtline⟩ := htag.piecesFrom_complete size rest hcomplete
    refine ⟨d.add (.element e []), ?_, congrArg (List.foldl Draft.push d) hpieces⟩
    exact houtline ▸ Draft.adds_add (.element e []) d
  | .element tag children endName, d, rest, ⟨htag, hvoid, hname, hchildren⟩, _ => by
    let endTag := '<' :: '/' :: (endName ++ '>' :: rest)
    obtain ⟨found, span, hstart, houtlines⟩ :=
      htag.piecesFrom_startTag size (writeAll children ++ endTag) hvoid
    obtain ⟨d', hadds, hread⟩ := reads_writeAll size children
      (d.push (.startTag (String.ofList tag.name) found span)) endTag hchildren
      (fun _ _ _ => nofun) (.inr rfl)
    obtain ⟨endSpan, hend⟩ := htag.piecesFrom_endTag size rest hname
    have hadded := Draft.adds_element span endSpan hname hadds
    rw [houtlines] at hadded
    refine ⟨_, hadded, ?_⟩
    have hwritten : (Written.element tag children endName).write ++ rest =
        '<' :: (tag.write false ++ (writeAll children ++ endTag)) := by
      simp [Written.write, endTag]
    rw [hwritten, hstart, List.foldl_cons, hread, hend, List.foldl_cons]

/-- What is written of nodes is read as the nodes. -/
theorem reads_writeAll (size : Nat) : ∀ (nodes : List Written) (d : Draft) (rest : List Char),
    LegibleAll nodes → (∀ first ∈ nodes.head?, first.isText = true → d.plain.Fresh) →
    EndsText rest → Reads size d (writeAll nodes ++ rest) (outlineAll nodes) rest
  | [], d, _, _, _, _ => ⟨d, ⟨rfl, rfl⟩, rfl⟩
  | node :: nodes, d, rest, ⟨hnode, hnext, hnodes⟩, hfresh, hrest => by
    rw [writeAll, List.append_assoc]
    refine (reads_write size node d (writeAll nodes ++ rest) hnode fun htext =>
      ⟨hfresh node rfl htext, hnodes.endsText (hnext htext) hrest⟩).trans fun d' hadds => ?_
    refine reads_writeAll size nodes d' rest hnodes (fun next hmem htext => ?_) hrest
    -- in front of a text there is no text
    have hmarkup : node.isText = false := by
      refine Bool.eq_false_iff.2 fun hthis => ?_
      rw [hnext hthis next hmem] at htext
      cases htext
    rw [hadds.plain]
    exact DraftOutline.fresh_add (Written.outline_ne_text hmarkup) d.plain

end

/-! ## Whole sources -/

/-- A forest that is written as markup is read as the same forest, without a problem. -/
theorem ofSource_writeAll {nodes : List Written} (h : LegibleAll nodes) :
    (Tree.ofSource (writeAll nodes)).outline = outlineAll nodes ∧
      (Tree.ofSource (writeAll nodes)).errors = [] := by
  obtain ⟨d, hadds, hread⟩ := reads_writeAll (Text.byteSize (writeAll nodes)) nodes {} [] h
    (fun _ _ _ => nofun) (.inl rfl)
  have hdraft : (pieces (writeAll nodes)).foldl Draft.push {} = d := by
    rw [List.append_nil] at hread
    rw [pieces, hread, piecesFrom]
    rfl
  have hroots : d.plain = ⟨[], (outlineAll nodes).reverse⟩ := by
    rw [← List.append_nil (outlineAll nodes).reverse]
    exact hadds.plain.trans (DraftOutline.addAll_roots _ _)
  rw [Tree.ofSource, hdraft]
  constructor
  · rw [Tree.outline, Draft.outlines_finish]
    show (d.plain.close d.plain.opened.length).roots.reverse = _
    rw [hroots]
    exact List.reverse_reverse _
  · rw [Draft.finish, Draft.errors_closeInner, hadds.errors]
    rfl

/-- Attributes of all forms, elements without an end tag, and end tags in another case. -/
theorem ofSource_written_list :
    let attributes : List WrittenAttribute := [
      ⟨[' '], "class".toList, some ('"', "a &lt; 'b'".toList)⟩, ⟨[' '], "hidden".toList, none⟩,
      ⟨['\n'], ":id".toList, some ('\'', "\"x\"".toList)⟩]
    let nodes : List Written := [.comment "x-".toList,
      .element ⟨"ul".toList, attributes, []⟩ [.text "one \x7b".toList,
        .complete ⟨"BR".toList, [], []⟩ false,
        .element ⟨"li".toList, [], [' ']⟩ [.complete ⟨"x-item".toList, [], []⟩ true] "LI".toList,
        .text "a > b \x7d\x7d".toList] "Ul".toList]
    writeAll nodes = ("<!--x---><ul class=\"a &lt; 'b'\" hidden\n:id='\"x\"'>one \x7b<BR>" ++
      "<li ><x-item/></LI>a > b \x7d\x7d</Ul>").toList ∧
    LegibleAll nodes ∧ (Tree.ofSource (writeAll nodes)).outline = outlineAll nodes ∧
    (Tree.ofSource (writeAll nodes)).errors = [] := by
  intro attributes nodes
  have h : LegibleAll nodes := by decide
  exact ⟨by decide, h, ofSource_writeAll h⟩

end Stencil.Markup
