import Stencil.Markup.Piece

/-!
# From pieces to a tree

The pieces of a template are added one by one to a draft of its tree. The draft keeps the elements
that are open, the innermost first, each with the contents it has so far; those contents are kept
with the newest first, so that adding a node is adding at the front.

An end tag closes the innermost open element of its name. Elements left open inside of it end where
the end tag starts; those still open when the source ends, end there. An end tag that closes nothing
is reported and otherwise ignored.
-/

namespace Stencil.Markup

/-- An element that is open, and its contents so far, the newest first. -/
structure OpenElement where
  element : Element
  contents : List Node
  deriving Repr

namespace OpenElement

/-- The node of the element, which ends at the offset `stop`. -/
def close (e : OpenElement) (stop : Nat) : Node :=
  .element { e.element with span := ⟨e.element.span.start, stop⟩ } e.contents.reverse

/-- The node of the element, closed by the end tag at `tag`. -/
def closeBy (e : OpenElement) (tag : Span) : Node :=
  .element { e.element with span := ⟨e.element.span.start, tag.stop⟩, endSpan := some tag }
    e.contents.reverse

end OpenElement

/-- A tree that is being built. -/
structure Draft where
  /-- The open elements, the innermost first. -/
  opened : List OpenElement := []
  /-- The nodes outside of all elements, the newest first. -/
  roots : List Node := []
  /-- The problems, the newest first. -/
  errors : List MarkupError := []

namespace Draft

/-- Changes the contents that new nodes are added to. -/
def mapContents (f : List Node → List Node) (d : Draft) : Draft :=
  match d.opened with
  | [] => { d with roots := f d.roots }
  | e :: es => { d with opened := { e with contents := f e.contents } :: es }

/-- Adds a node to the innermost open element. -/
def add (node : Node) (d : Draft) : Draft := d.mapContents (node :: ·)

/-- Adds a text. It continues the text before it, if that is the newest node and ends where this one
starts. -/
def addText (value : String) (span : Span) (d : Draft) : Draft :=
  d.mapContents fun
    | .text earlier earlierSpan :: nodes =>
      if earlierSpan.stop = span.start then
        .text (earlier ++ value) ⟨earlierSpan.start, span.stop⟩ :: nodes
      else .text value span :: .text earlier earlierSpan :: nodes
    | nodes => .text value span :: nodes

/-- Reports a problem. -/
def report (error : MarkupError) (d : Draft) : Draft := { d with errors := error :: d.errors }

/-- Closes the `count` innermost elements, all at the offset `stop`. -/
def closeInner (stop : Nat) : (count : Nat) → Draft → Draft
  | 0, d => d
  | count + 1, d =>
    match d.opened with
    | [] => d
    | e :: es => closeInner stop count (add (e.close stop) { d with opened := es })

/-- Closes the innermost element by the end tag at `tag`. -/
def closeBy (tag : Span) (d : Draft) : Draft :=
  match d.opened with
  | [] => d
  | e :: es => add (e.closeBy tag) { d with opened := es }

/-- Adds what a piece stands for. -/
def push (d : Draft) : Piece → Draft
  | .text value span => d.addText (String.ofList value) span
  | .comment value span => d.add (.comment (String.ofList value) span)
  | .element node => d.add node
  | .problem error => d.report error
  | .startTag name attributes span =>
    { d with opened := ⟨⟨name, attributes, span, span, none⟩, []⟩ :: d.opened }
  | .endTag name span =>
    match d.opened.findIdx? fun e => Text.sameIgnoringCase e.element.name name with
    | some inner => (d.closeInner span.start inner).closeBy span
    | none => d.report ⟨.unexpectedEndTag name, span⟩

/-- The tree of a source of `size` bytes, all pieces of which have been added. -/
def finish (size : Nat) (d : Draft) : Tree :=
  let d := d.closeInner size d.opened.length
  ⟨d.roots.reverse, d.errors.reverse⟩

end Draft

/-- The tree of a template. -/
def Tree.ofSource (source : List Char) : Tree :=
  ((pieces source).foldl Draft.push {}).finish (Text.byteSize source)

end Stencil.Markup
