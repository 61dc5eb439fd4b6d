import Stencil.Proofs.Markup.Recut

/-!
# The tree of a source with new texts

**The law** (`exists_reread`): a source in which values of attributes and insides of markers get new
texts is read as the tree with the new texts. There is such a source, it is the old one with the edits
of the new texts applied, and its tree has the outline that the new texts give.

Pieces that are cut alike (Proofs/Markup/Recut) build trees of one outline. Two drafts are compared by
their outlines, on which closing elements and adding nodes act as they do on the drafts
(`DraftOutline`, with `Draft.outline_add`, `Draft.outline_closeInner` and so on), so pushing alike
pieces keeps drafts alike (`Draft.Alike.push`).

Only a text needs more: whether it continues the text before it is a matter of offsets. In both drafts
the newest node is a text that ends where the unread rest starts, or in both it is not (`Newest`); if
it is, the two are refilled as one (`Draft.Alike.text_touching`), otherwise the text is a node of its
own (`Draft.Alike.text_apart`). `CutAlike.fold` is the induction over the pieces.

**What it does not establish.** The new texts must fit: `NewTexts.Fit` is assumed throughout.
-/

namespace Stencil.Markup

open Text (byteSize)

/-! ## Drafts without spans -/

/-- An open element without its spans. -/
structure OpenOutline where
  name : String
  attributes : List AttributeOutline
  /-- The contents so far, the newest first. -/
  contents : List Outline

/-- A draft without spans and problems. -/
structure DraftOutline where
  /-- The open elements, the innermost first. -/
  opened : List OpenOutline
  roots : List Outline

namespace DraftOutline

/-- The contents that new nodes are added to. -/
def contents (d : DraftOutline) : List Outline :=
  match d.opened with
  | [] => d.roots
  | e :: _ => e.contents

/-- Replaces the contents that new nodes are added to. -/
def setContents (contents : List Outline) (d : DraftOutline) : DraftOutline :=
  match d.opened with
  | [] => { d with roots := contents }
  | e :: es => { d with opened := { e with contents } :: es }

/-- Adds a node to the innermost open element. -/
def add (node : Outline) (d : DraftOutline) : DraftOutline := d.setContents (node :: d.contents)

/-- Closes the `count` innermost elements. -/
def close : (count : Nat) → DraftOutline → DraftOutline
  | 0, d => d
  | count + 1, d =>
    match d.opened with
    | [] => d
    | e :: es =>
      close count (add (.element e.name e.attributes e.contents.reverse) { d with opened := es })

end DraftOutline

/-- The contents that new nodes are added to. -/
def Draft.contents (d : Draft) : List Node :=
  match d.opened with
  | [] => d.roots
  | e :: _ => e.contents

section

variable (value : Attribute → String) (text : Nat → List Char → List Char)

def OpenElement.outline (e : OpenElement) : OpenOutline :=
  ⟨e.element.name, e.element.attributes.map (·.outline value), e.contents.map (Node.outline value text)⟩

def Draft.outline (d : Draft) : DraftOutline :=
  ⟨d.opened.map (·.outline value text), d.roots.map (Node.outline value text)⟩

end

namespace Draft

section

variable {value : Attribute → String} {text : Nat → List Char → List Char} {d : Draft}

/-- The outline of the innermost contents. -/
theorem contents_outline :
    (d.outline value text).contents = d.contents.map (Node.outline value text) := by
  unfold DraftOutline.contents Draft.contents Draft.outline
  cases d.opened <;> rfl

/-- Changing the innermost contents puts others in their place. -/
theorem mapContents_eq (f : List Node → List Node) :
    d.mapContents f = d.mapContents fun _ => f d.contents := by
  unfold Draft.mapContents Draft.contents
  cases d.opened <;> rfl

/-- The innermost contents are changed. -/
theorem contents_mapContents (f : List Node → List Node) :
    (d.mapContents f).contents = f d.contents := by
  unfold Draft.mapContents Draft.contents
  cases d.opened <;> rfl

/-- The outline of a draft with changed contents. -/
theorem outline_mapContents (f : List Node → List Node) :
    (d.mapContents f).outline value text =
      (d.outline value text).setContents ((f d.contents).map (Node.outline value text)) := by
  unfold Draft.mapContents Draft.contents DraftOutline.setContents Draft.outline
  cases d.opened <;> rfl

/-- Adding a node adds its outline. -/
theorem outline_add (node : Node) :
    (d.add node).outline value text = (d.outline value text).add (node.outline value text) := by
  rw [Draft.add, outline_mapContents, DraftOutline.add, contents_outline, List.map_cons]

/-- The outline of an element that is closed. -/
theorem outline_close (e : OpenElement) (stop : Nat) : (e.close stop).outline value text =
    .element (e.outline value text).name (e.outline value text).attributes
      (e.outline value text).contents.reverse := by
  rw [OpenElement.close, Node.outline, outlines_eq_map, List.map_reverse]
  rfl

/-- Closing elements closes them in the outline. -/
theorem outline_closeInner (stop count : Nat) (d : Draft) :
    (d.closeInner stop count).outline value text = (d.outline value text).close count := by
  induction count generalizing d with
  | zero => rfl
  | succ count ih =>
    rw [Draft.closeInner, DraftOutline.close]
    cases hd : d.opened with
    | nil => simp [Draft.outline, hd]
    | cons e es =>
      have houter : (d.outline value text).opened =
          e.outline value text :: es.map (·.outline value text) := by
        simp [Draft.outline, hd]
      rw [houter]
      dsimp only
      rw [ih, outline_add, outline_close]
      rfl

/-- An end tag closes one element of the outline. -/
theorem outline_closeBy (tag : Span) :
    (d.closeBy tag).outline value text = (d.outline value text).close 1 := by
  rw [Draft.closeBy, DraftOutline.close]
  cases hd : d.opened with
  | nil => simp [Draft.outline, hd]
  | cons e es =>
    have houter : (d.outline value text).opened =
        e.outline value text :: es.map (·.outline value text) := by
      simp [Draft.outline, hd]
    have hclose : (e.closeBy tag).outline value text = (e.close tag.stop).outline value text := rfl
    rw [houter]
    dsimp only
    rw [outline_add, hclose, outline_close]
    rfl

/-- Open elements are found by name in the outline as in the draft. -/
theorem findIdx?_outline (p : String → Bool) :
    d.opened.findIdx? (fun e => p e.element.name) =
      (d.outline value text).opened.findIdx? fun e => p e.name := by
  rw [Draft.outline, List.findIdx?_map]
  rfl

end

/-! ## What changes in a draft -/

section

variable {new : NewTexts} {d : Draft}

/-- What changes in a draft, in the order of the source. -/
def edits (new : NewTexts) (d : Draft) : List Edit :=
  editsOf new d.roots.reverse ++ d.opened.reverse.flatMap fun e =>
    e.element.attributes.flatMap new.edits ++ editsOf new e.contents.reverse

/-- The edits of a draft grow with the innermost contents. -/
theorem edits_mapContents {f : List Node → List Node} {es : List Edit}
    (h : editsOf new (f d.contents).reverse = editsOf new d.contents.reverse ++ es) :
    (d.mapContents f).edits new = d.edits new ++ es := by
  unfold Draft.mapContents Draft.edits
  unfold Draft.contents at h
  cases hd : d.opened with
  | nil =>
    rw [hd] at h
    simpa using h
  | cons e opened =>
    rw [hd] at h
    simp only [List.reverse_cons, List.flatMap_append, List.flatMap_singleton, List.append_assoc]
    rw [h]

/-- Adding a node adds its edits. -/
theorem edits_add (node : Node) : (d.add node).edits new = d.edits new ++ node.edits new := by
  refine edits_mapContents ?_
  rw [List.reverse_cons, editsOf_eq_flatMap, editsOf_eq_flatMap, List.flatMap_append,
    List.flatMap_singleton]

/-- The edits of a draft, apart from its innermost open element. -/
theorem edits_opened {e : OpenElement} {opened : List OpenElement} (hd : d.opened = e :: opened)
    (stop : Nat) :
    d.edits new = ({ d with opened := opened } : Draft).edits new ++ (e.close stop).edits new := by
  rw [OpenElement.close, Node.edits, Draft.edits, Draft.edits, hd, List.reverse_cons,
    List.flatMap_append, List.flatMap_singleton, List.append_assoc]

/-- Closing elements changes no edits. -/
theorem edits_closeInner (stop count : Nat) (d : Draft) :
    (d.closeInner stop count).edits new = d.edits new := by
  induction count generalizing d with
  | zero => rfl
  | succ count ih =>
    rw [Draft.closeInner]
    cases hd : d.opened with
    | nil => rfl
    | cons e opened =>
      dsimp only
      rw [ih, edits_add, ← edits_opened hd stop]

/-- An end tag changes no edits. -/
theorem edits_closeBy (tag : Span) : (d.closeBy tag).edits new = d.edits new := by
  rw [Draft.closeBy]
  cases hd : d.opened with
  | nil => rfl
  | cons e opened =>
    have hclose : (e.closeBy tag).edits new = (e.close tag.stop).edits new := rfl
    dsimp only
    rw [edits_add, hclose, ← edits_opened hd tag.stop]

end

end Draft

/-! ## Texts that continue others -/

/-- The newest node is no text that reaches to the offset. -/
def Apart (offset : Nat) (contents : List Node) : Prop :=
  ∀ t span, contents.head? = some (.text t span) → span.stop < offset

/-- What the newest nodes of two drafts have in common: either both are texts that reach to where the
unread texts `cs` and `cs'` start, and the first one is settled there, or neither is. -/
inductive Newest (new : NewTexts) (size size' : Nat) (cs cs' : List Char) :
    (contents contents' : List Node) → Prop
  | apart {contents contents' : List Node} : Apart (offsetOf size cs) contents →
    Apart (offsetOf size' cs') contents' → Newest new size size' cs cs' contents contents'
  | touching {t t' : String} {span span' : Span} {nodes nodes' : List Node} :
    span.stop = offsetOf size cs → span'.stop = offsetOf size' cs' →
    span.start + byteSize t.toList = span.stop → Settled new.inside span.start t.toList cs →
    Newest new size size' cs cs' (.text t span :: nodes) (.text t' span' :: nodes')

theorem apart_nil (offset : Nat) : Apart offset [] := by rintro t span ⟨⟩

/-- A node that is no text is apart from what follows. -/
theorem apart_cons {node : Node} (h : ∀ t span, node ≠ .text t span) (offset : Nat)
    (nodes : List Node) : Apart offset (node :: nodes) := by
  intro t span heq
  exact absurd (Option.some.inj heq) (h t span)

/-- What is apart from an offset is apart from later ones. -/
theorem Apart.mono {offset offset' : Nat} {contents : List Node} (h : Apart offset contents)
    (hle : offset ≤ offset') : Apart offset' contents :=
  fun t span heq => Nat.lt_of_lt_of_le (h t span heq) hle

section

variable {new : NewTexts} {size size' : Nat} {cs cs' rest rest' : List Char}

/-- In the first draft, the newest text ends in front of what is read later. -/
theorem Newest.left {contents contents' : List Node}
    (h : Newest new size size' cs cs' contents contents')
    (hlt : offsetOf size cs < offsetOf size rest) : Apart (offsetOf size rest) contents := by
  cases h with
  | apart hleft _ => exact hleft.mono (Nat.le_of_lt hlt)
  | touching hstop _ _ _ =>
    rintro _ _ ⟨⟩
    omega

/-- In the second draft, the newest text ends in front of what is read later. -/
theorem Newest.right {contents contents' : List Node}
    (h : Newest new size size' cs cs' contents contents')
    (hlt : offsetOf size' cs' < offsetOf size' rest') : Apart (offsetOf size' rest') contents' := by
  cases h with
  | apart _ hright => exact hright.mono (Nat.le_of_lt hlt)
  | touching _ hstop _ _ =>
    rintro _ _ ⟨⟩
    omega

/-- A node that is no text keeps the next text apart. -/
theorem apart_add {d : Draft} {node : Node} (h : ∀ t span, node ≠ .text t span) (offset : Nat) :
    Apart offset (d.add node).contents := by
  rw [Draft.add, Draft.contents_mapContents]
  exact apart_cons h offset _

/-- An element that is closed keeps the next text apart. -/
theorem Apart.closeInner {offset stop count : Nat} {d : Draft} (h : Apart offset d.contents) :
    Apart offset (d.closeInner stop count).contents := by
  induction count generalizing d with
  | zero => exact h
  | succ count ih =>
    rw [Draft.closeInner]
    split
    · exact h
    · exact ih (apart_add (by rintro t span ⟨⟩) offset)

/-- An element that an end tag closes keeps the next text apart. -/
theorem Apart.closeBy {offset : Nat} {tag : Span} {d : Draft} (h : Apart offset d.contents) :
    Apart offset (d.closeBy tag).contents := by
  rw [Draft.closeBy]
  split
  · exact h
  · exact apart_add (by rintro t span ⟨⟩) offset

/-! ## Drafts that are alike -/

/-- A draft, and what it is in the source with the new texts. -/
structure Draft.Alike (new : NewTexts) (size size' : Nat) (cs cs' : List Char) (d d' : Draft) :
    Prop where
  outline : d'.outline (·.value) (fun _ t => t) = d.outline new.valueOf (refill new.inside)
  newest : Newest new size size' cs cs' d.contents d'.contents

variable {d d' : Draft}

/-- Drafts stay alike while the sources are read on. -/
theorem Draft.Alike.later (h : d.Alike new size size' cs cs' d')
    (hlt : offsetOf size cs < offsetOf size rest) (hlt' : offsetOf size' cs' < offsetOf size' rest') :
    d.Alike new size size' rest rest' d' :=
  ⟨h.outline, .apart (h.newest.left hlt) (h.newest.right hlt')⟩

/-- Pushing a piece other than a text. -/
theorem Draft.Alike.push {p p' : Piece} (h : d.Alike new size size' cs cs' d') (hp : p.Again new p')
    (hlt : offsetOf size cs < offsetOf size rest) (hlt' : offsetOf size' cs' < offsetOf size' rest') :
    (d.push p).Alike new size size' rest rest' (d'.push p') := by
  have hleft := h.newest.left hlt
  have hright := h.newest.right hlt'
  -- The pieces of the two scans are of the same kind, and the drafts take them in the same way.
  cases p with
  | text value span => exact hp.elim
  | problem error => exact hp.elim
  | comment value span =>
    cases p' with
    | comment value' span' =>
      obtain rfl : value' = value := hp
      refine ⟨?_, .apart (apart_add (by rintro _ _ ⟨⟩) _) (apart_add (by rintro _ _ ⟨⟩) _)⟩
      rw [Draft.push, Draft.push, Draft.outline_add, Draft.outline_add, h.outline]
      rfl
    | _ => exact hp.elim
  | startTag name attributes span =>
    cases p' with
    | startTag name' attributes' span' =>
      obtain ⟨rfl, hattributes⟩ := hp
      refine ⟨?_, .apart (apart_nil _) (apart_nil _)⟩
      have hopened := congrArg DraftOutline.opened h.outline
      have hroots := congrArg DraftOutline.roots h.outline
      simp only [Draft.outline] at hopened hroots
      simp only [Draft.push, Draft.outline, List.map_cons, hopened, hroots, DraftOutline.mk.injEq,
        List.cons.injEq, and_true]
      rw [OpenElement.outline, OpenElement.outline, hattributes]
      rfl
    | _ => exact hp.elim
  | endTag name span =>
    cases p' with
    | endTag name' span' =>
      obtain rfl : name' = name := hp
      have hfound : d'.opened.findIdx? (fun e => Text.sameIgnoringCase e.element.name name') =
          d.opened.findIdx? fun e => Text.sameIgnoringCase e.element.name name' := by
        rw [Draft.findIdx?_outline fun name => Text.sameIgnoringCase name name', h.outline,
          ← Draft.findIdx?_outline fun name => Text.sameIgnoringCase name name']
      rw [Draft.push, Draft.push, hfound]
      split
      · refine ⟨?_, .apart hleft.closeInner.closeBy hright.closeInner.closeBy⟩
        rw [Draft.outline_closeBy, Draft.outline_closeBy, Draft.outline_closeInner,
          Draft.outline_closeInner, h.outline]
      · exact ⟨h.outline, .apart hleft hright⟩
    | _ => exact hp.elim
  | element node =>
    cases node with
    | text t span => exact hp.elim
    | comment t span => exact hp.elim
    | element e nodes =>
      obtain ⟨e', nodes', rfl, houtline⟩ : ∃ e' nodes', p' = .element (.element e' nodes') ∧
          (Node.element e' nodes').outline (·.value) (fun _ t => t) =
            (Node.element e nodes).outline new.valueOf (refill new.inside) := by
        unfold Piece.Again at hp
        split at hp <;> simp_all
      refine ⟨?_, .apart (apart_add (by rintro _ _ ⟨⟩) _) (apart_add (by rintro _ _ ⟨⟩) _)⟩
      rw [Draft.push, Draft.push, Draft.outline_add, Draft.outline_add, h.outline, houtline]

/-- A piece that is no text adds its own edits. -/
theorem Draft.edits_push {p : Piece} (h : ∀ value span, p ≠ .text value span) :
    (d.push p).edits new = d.edits new ++ p.edits new := by
  cases p with
  | text value span => exact absurd rfl (h value span)
  | comment value span => exact Draft.edits_add _
  | element node => exact Draft.edits_add node
  | problem error => exact (List.append_nil _).symm
  | startTag name attributes span =>
    simp [Draft.push, Draft.edits, Piece.edits, editsOf]
  | endTag name span =>
    rw [Draft.push, Piece.edits, List.append_nil]
    split
    · rw [Draft.edits_closeBy, Draft.edits_closeInner]
    · rfl

/-! ## Texts -/

/-- A text that touches no other one is a node of its own. -/
theorem Draft.addText_apart {value : String} {span : Span} (h : Apart span.start d.contents) :
    d.addText value span = d.add (.text value span) := by
  rw [Draft.addText, Draft.add, Draft.mapContents_eq, Draft.mapContents_eq (_ :: ·)]
  congr 1
  funext _
  split
  · next earlier earlierSpan nodes heq =>
    have hlt := h earlier earlierSpan (by rw [heq]; rfl)
    rw [if_neg (by omega), heq]
  · rfl

/-- A text that touches the newest one goes on with it. -/
theorem Draft.addText_touching {value t : String} {span earlier : Span} {nodes : List Node}
    (h : d.contents = .text t earlier :: nodes) (htouch : earlier.stop = span.start) :
    d.addText value span =
      d.mapContents fun _ => .text (t ++ value) ⟨earlier.start, span.stop⟩ :: nodes := by
  rw [Draft.addText, Draft.mapContents_eq, h]
  dsimp only
  rw [if_pos htouch]

/-- The drafts stay alike when each of them takes its text, and the first has the edits of the text
then. -/
def Draft.TakesText (new : NewTexts) (size size' : Nat) (value rest value' rest' : List Char)
    (d d' : Draft) : Prop :=
  (d.push (.text value (spanBetween size (value ++ rest) rest))).Alike new size size' rest rest'
      (d'.push (.text value' (spanBetween size' (value' ++ rest') rest'))) ∧
    (d.push (.text value (spanBetween size (value ++ rest) rest))).edits new =
      d.edits new ++ fillEdits new.inside (offsetOf size (value ++ rest)) value

section

variable {value value' : List Char}
  (h : d.Alike new size size' (value ++ rest) (value' ++ rest') d')
  (hvalue : value' = refill new.inside (offsetOf size (value ++ rest)) value)
  (hsettled : Settled new.inside (offsetOf size (value ++ rest)) value rest)
  (hstop : offsetOf size (value ++ rest) + byteSize value = offsetOf size rest)

include h hvalue hsettled hstop

/-- Pushing a text behind something else. -/
theorem Draft.Alike.text_apart (hleft : Apart (offsetOf size (value ++ rest)) d.contents)
    (hright : Apart (offsetOf size' (value' ++ rest')) d'.contents) :
    d.TakesText new size size' value rest value' rest' d' := by
  rw [Draft.TakesText, Draft.push, Draft.push, Draft.addText_apart hleft, Draft.addText_apart hright]
  refine ⟨⟨?_, ?_⟩, ?_⟩
  · rw [Draft.outline_add, Draft.outline_add, h.outline, Node.outline, Node.outline,
      String.toList_ofList, String.toList_ofList, hvalue]
    rfl
  · rw [Draft.add, Draft.add, Draft.contents_mapContents, Draft.contents_mapContents]
    refine .touching rfl rfl ?_ ?_
    · rw [String.toList_ofList]
      exact hstop
    · rw [String.toList_ofList]
      exact hsettled
  · rw [Draft.edits_add, Node.edits, String.toList_ofList]
    rfl

/-- Pushing a text directly behind another one, which goes on with it. -/
theorem Draft.Alike.text_touching {t t' : String} {earlier earlier' : Span}
    {nodes nodes' : List Node}
    (hd : d.contents = .text t earlier :: nodes) (hd' : d'.contents = .text t' earlier' :: nodes')
    (htouch : earlier.stop = offsetOf size (value ++ rest))
    (htouch' : earlier'.stop = offsetOf size' (value' ++ rest'))
    (hsize : earlier.start + byteSize t.toList = earlier.stop)
    (hearlier : Settled new.inside earlier.start t.toList (value ++ rest)) :
    d.TakesText new size size' value rest value' rest' d' := by
  -- The new text is put together with the one in front of it, in both drafts.
  have houtlines := congrArg DraftOutline.contents h.outline
  rw [Draft.contents_outline, Draft.contents_outline, hd, hd', List.map_cons, List.map_cons,
    Node.outline, Node.outline] at houtlines
  obtain ⟨htext, hnodes⟩ := List.cons.inj houtlines
  have htext : t'.toList = refill new.inside earlier.start t.toList :=
    String.ofList_injective (Outline.text.inj htext)
  have hoffset : earlier.start + byteSize t.toList = offsetOf size (value ++ rest) :=
    hsize.trans htouch
  obtain ⟨hrefill, hedits⟩ := hearlier value (List.prefix_append value rest)
  rw [hoffset] at hrefill hedits
  rw [Draft.TakesText, Draft.push, Draft.push, Draft.addText_touching hd htouch,
    Draft.addText_touching hd' htouch']
  refine ⟨⟨?_, ?_⟩, ?_⟩
  · rw [Draft.outline_mapContents, Draft.outline_mapContents, h.outline, List.map_cons, List.map_cons,
      hnodes, Node.outline, Node.outline, String.toList_append, String.toList_append,
      String.toList_ofList, String.toList_ofList, htext, hvalue, hrefill]
  · rw [Draft.contents_mapContents, Draft.contents_mapContents]
    refine .touching rfl rfl ?_ ?_
    · rw [String.toList_append, String.toList_ofList, Text.byteSize_append, ← Nat.add_assoc, hoffset]
      exact hstop
    · rw [String.toList_append, String.toList_ofList]
      exact hearlier.append (hoffset ▸ hsettled)
  · refine Draft.edits_mapContents ?_
    rw [hd, List.reverse_cons, List.reverse_cons, editsOf_eq_flatMap, editsOf_eq_flatMap,
      List.flatMap_append, List.flatMap_append, List.flatMap_singleton, List.flatMap_singleton,
      Node.edits, Node.edits, String.toList_append, String.toList_ofList, hedits, List.append_assoc]

/-- Pushing a text. -/
theorem Draft.Alike.text : d.TakesText new size size' value rest value' rest' d' := by
  have hnewest := h.newest
  generalize hd : d.contents = contents at hnewest
  generalize hd' : d'.contents = contents' at hnewest
  cases hnewest with
  | apart hleft hright => exact h.text_apart hvalue hsettled hstop (hd ▸ hleft) (hd' ▸ hright)
  | touching htouch htouch' hsize hearlier =>
    exact h.text_touching hvalue hsettled hstop hd hd' htouch htouch' hsize hearlier

end

/-- Sources that are cut alike have drafts that are alike. -/
theorem CutAlike.fold {ps ps' : List Piece} (h : CutAlike new size size' cs cs' ps ps')
    (hd : d.Alike new size size' cs cs' d') :
    (ps.foldl Draft.push d).Alike new size size' [] [] (ps'.foldl Draft.push d') ∧
      (ps.foldl Draft.push d).edits new = d.edits new ++ ps.flatMap (·.edits new) := by
  induction h generalizing d d' with
  | nil => exact ⟨hd, (List.append_nil _).symm⟩
  | pass hlt hlt' _ ih => exact ih (hd.later hlt hlt')
  | problem e _ ih => exact ih ⟨hd.outline, hd.newest⟩
  | problem' e _ ih => exact ih ⟨hd.outline, hd.newest⟩
  | piece hp hlt hlt' _ ih =>
    obtain ⟨hall, hedits⟩ := ih (hd.push hp hlt hlt')
    refine ⟨hall, ?_⟩
    rw [List.foldl_cons, hedits, Draft.edits_push, List.flatMap_cons, List.append_assoc]
    rintro _ _ rfl
    exact hp
  | text hvalue hsettled hstop _ _ _ ih =>
    obtain ⟨hpush, hedit⟩ := hd.text hvalue hsettled hstop
    obtain ⟨hall, hedits⟩ := ih hpush
    refine ⟨hall, ?_⟩
    rw [List.foldl_cons, hedits, hedit, List.flatMap_cons, List.append_assoc]
    rfl

end

/-! ## Trees -/

/-- Adding a node opens and closes nothing. -/
theorem DraftOutline.length_opened_add (node : Outline) (d : DraftOutline) :
    (d.add node).opened.length = d.opened.length := by
  unfold DraftOutline.add DraftOutline.setContents
  split
  · rfl
  · next hd => rw [hd, List.length_cons, List.length_cons]

/-- Nothing stays open when all that is open is closed. -/
theorem DraftOutline.opened_close {count : Nat} {d : DraftOutline} (h : d.opened.length = count) :
    (d.close count).opened = [] := by
  induction count generalizing d with
  | zero => exact List.length_eq_zero_iff.1 h
  | succ count ih =>
    rw [DraftOutline.close]
    obtain ⟨e, es, hd⟩ := List.exists_cons_of_length_eq_add_one h
    rw [hd] at h ⊢
    exact ih ((DraftOutline.length_opened_add _ _).trans (Nat.succ.inj h))

namespace Draft

/-- The outline of the tree is that of the draft with everything closed. -/
theorem outlines_finish {value : Attribute → String} {text : Nat → List Char → List Char}
    (size : Nat) (d : Draft) : outlines value text (d.finish size).nodes =
      ((d.outline value text).close (d.outline value text).opened.length).roots.reverse := by
  have hlength : (d.outline value text).opened.length = d.opened.length := List.length_map _
  rw [hlength, ← outline_closeInner size, outlines_eq_map, Draft.finish, List.map_reverse]
  rfl

/-- The edits of the tree are those of the draft. -/
theorem edits_finish {new : NewTexts} (size : Nat) (d : Draft) :
    editsOf new (d.finish size).nodes = d.edits new := by
  have houtline : (d.closeInner size d.opened.length).outline (·.value) (fun _ t => t) = _ :=
    outline_closeInner size d.opened.length d
  have hopened : (d.closeInner size d.opened.length).opened = [] := by
    have hnone := congrArg DraftOutline.opened houtline
    rw [DraftOutline.opened_close (List.length_map _)] at hnone
    exact List.map_eq_nil_iff.1 hnone
  rw [← edits_closeInner size d.opened.length d, Draft.edits, hopened]
  exact (List.append_nil _).symm

end Draft

/-- A source in which values of attributes and insides of markers get new texts is read as the tree with
the new texts in it: the same elements, with the same attributes in the same order, the same texts but
for the insides of their markers, and the same comments. -/
theorem exists_reread {new : NewTexts} (hnew : new.Fit) (source : List Char) :
    ∃ target, Edit.Rewrites 0 source (editsOf new (Tree.ofSource source).nodes) target ∧
      (Tree.ofSource target).outline =
        outlines new.valueOf (refill new.inside) (Tree.ofSource source).nodes := by
  obtain ⟨target, hrewritten, -, hagain⟩ := exists_cutAlike hnew (Nat.le_refl (byteSize source))
  have hstart : ({} : Draft).Alike new (byteSize source) (byteSize target) source target {} :=
    ⟨rfl, .apart (apart_nil _) (apart_nil _)⟩
  obtain ⟨halike, hedits⟩ := (hagain _ (Nat.le_refl _)).fold hstart
  refine ⟨target, ?_, ?_⟩
  · rw [Tree.ofSource, Draft.edits_finish, pieces, hedits]
    have hrewrites := hrewritten.rewrites
    rw [offsetOf, Nat.sub_self] at hrewrites
    exact hrewrites
  · rw [Tree.outline, Tree.ofSource, Tree.ofSource, Draft.outlines_finish, Draft.outlines_finish, pieces,
      pieces, halike.outline]

end Stencil.Markup
