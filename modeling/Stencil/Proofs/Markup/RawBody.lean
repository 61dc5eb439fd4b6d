import Stencil.Proofs.Markup.Harvest
import Stencil.Proofs.Markup.RawText
import Mathlib.Data.List.Basic

/-!
# Where contents that are not markup end

An element whose contents are not markup has a body, which ends in front of the first place behind the
start tag that looks like the end tag of the element: there are `</` and its name, in any case of the
letters, whatever comes next (`SeemsEnd`). `IsEnd` is what an end tag of the element is elsewhere.

**The law** (`rawBody_ends`): for every such element of every tree, unless its start tag closes it,
the body goes from the start tag up to the first place that seems to be its end, or to the end of the
source; and it goes up to the first end tag of the element if and only if no further character of a
name comes behind that place. If one does, the body ends too early, at the end tag of an element with
a longer name (`exists_body_too_short`).

Every element of a tree comes from a piece. Elements whose contents are not markup are complete in
themselves, so what their pieces say of them is not changed by the pieces around them
(`hasBodies_ofSource`, by Proofs/Markup/Harvest). `upTo_rawBody` is about the search for the end, and
`isEnd_iff` about the reading of an end tag there.

**What it does not establish.** Nothing is said of what such a body should hold.
-/

namespace Stencil.Markup

open Text (byteSize)

/-! ## Ends of a body -/

/-- The text starts like the end tag of the element. -/
def SeemsEnd (name : String) (cs : List Char) : Prop := endMark name <+: cs.map Char.toLower

/-- The text starts with the end tag of the element: no further character of a name follows. -/
def IsEnd (name : String) (cs : List Char) : Prop :=
  SeemsEnd name cs ∧ ∀ c ∈ (cs.drop (endMark name).length).head?, Text.isNameChar c = false

instance (name : String) (cs : List Char) : Decidable (SeemsEnd name cs) :=
  inferInstanceAs (Decidable (_ <+: _))

instance (name : String) (cs : List Char) : Decidable (IsEnd name cs) :=
  haveI : Decidable (∀ c ∈ (cs.drop (endMark name).length).head?, Text.isNameChar c = false) :=
    Option.decidableForallMem _
  inferInstanceAs (Decidable (_ ∧ _))

/-- The body is followed by the first end, or by nothing if there is no end. -/
def UpTo (ends : List Char → Prop) (body behind : List Char) : Prop :=
  (behind = [] ∨ ends behind) ∧ ∀ n < body.length, ¬ ends ((body ++ behind).drop n)

instance (ends : List Char → Prop) [DecidablePred ends] (body behind : List Char) :
    Decidable (UpTo ends body behind) := inferInstanceAs (Decidable (_ ∧ _))

section

variable {name : String} {cs body behind : List Char}

/-- What seems to be the end: `</` and the name, but for the case of the letters. -/
theorem seemsEnd_iff : SeemsEnd name cs ↔
    ∃ tag rest, cs = tag ++ rest ∧ tag.map Char.toLower = endMark name := by
  constructor
  · rintro ⟨rest, hrest⟩
    obtain ⟨tag, behind, rfl, htag, -⟩ := List.map_eq_append_iff.1 hrest.symm
    exact ⟨tag, behind, rfl, htag⟩
  · rintro ⟨tag, rest, rfl, htag⟩
    exact ⟨rest.map Char.toLower, by rw [List.map_append, htag]⟩

/-- A body ends at the first place that looks like its end. -/
theorem upTo_rawBody (name : String) (cs : List Char) :
    UpTo (SeemsEnd name) (rawBody name cs) (cs.drop (rawBody name cs).length) := by
  obtain ⟨body, behind, rfl, hbody, -, hbehind⟩ := rawBody_cases name cs
  rw [hbody, List.drop_left]
  refine ⟨hbehind.imp_right seemsEnd_iff.2, fun n hn => ?_⟩
  rw [SeemsEnd, List.map_drop]
  cases hcut : Text.cutAt (endMark name) ((body ++ behind).map Char.toLower) with
  | none =>
    have hnone := (Text.cutAt_eq_none (List.cons_ne_nil _ _)).1 hcut
    exact fun hstarts => hnone (hstarts.isInfix.trans (List.drop_suffix _ _).isInfix)
  | some found =>
    have hlength : body.length ≤ found.1.length := by
      rw [← hbody, rawBody_of_some hcut]
      exact List.length_take_le _ _
    exact Text.not_prefix_drop_of_cutAt hcut n (Nat.lt_of_lt_of_le hn hlength)

/-- Only the place in front of which the body ends can be wrong. -/
theorem UpTo.isEnd_iff (h : UpTo (SeemsEnd name) body behind) :
    UpTo (IsEnd name) body behind ↔ behind = [] ∨ IsEnd name behind :=
  and_iff_left fun n hn hend => h.2 n hn hend.1

/-- A text that is the name but for the case of its letters could be the name of a tag. -/
theorem IsTagName.of_map_toLower (h : IsTagName name) {written : List Char}
    (heq : written.map Char.toLower = name.toList.map Char.toLower) :
    ∀ c ∈ written, Text.isNameChar c = true := by
  have hlower := Text.class_toLower (p := Text.isNameChar) fun c hc => by
    simp [Text.isNameChar, Text.isLetter, hc]
  intro c hc
  have hmem : c.toLower ∈ name.toList.map Char.toLower := heq ▸ List.mem_map_of_mem hc
  obtain ⟨d, hd, hdc⟩ := List.mem_map.1 hmem
  rw [← hlower, ← hdc, hlower]
  exact h d hd

/-- The end tag of the element is what is read as an end tag with its name. -/
theorem isEnd_iff (hname : IsTagName name) : IsEnd name cs ↔ ∃ rest, cs = '<' :: '/' :: rest ∧
    Text.sameIgnoringCase (String.ofList (rest.takeWhile Text.isNameChar)) name = true := by
  constructor
  · rintro ⟨hseems, hnext⟩
    obtain ⟨tag, rest, rfl, htag⟩ := seemsEnd_iff.1 hseems
    rw [← htag, List.length_map, List.drop_left] at hnext
    obtain ⟨c, _, rfl, hc, htag⟩ := List.map_eq_cons_iff.1 htag
    obtain ⟨d, written, rfl, hd, hwritten⟩ := List.map_eq_cons_iff.1 htag
    obtain rfl := Text.eq_of_toLower hc (by decide)
    obtain rfl := Text.eq_of_toLower hd (by decide)
    refine ⟨written ++ rest, rfl, ?_⟩
    rw [Text.takeWhile_run (hname.of_map_toLower hwritten) hnext]
    simp [Text.sameIgnoringCase, hwritten]
  · rintro ⟨rest, rfl, hsame⟩
    have hwritten : (rest.takeWhile Text.isNameChar).map Char.toLower = name.toList.map Char.toLower := by
      simpa [Text.sameIgnoringCase] using hsame
    have htag : ('<' :: '/' :: rest.takeWhile Text.isNameChar).map Char.toLower = endMark name := by
      rw [List.map_cons, List.map_cons, hwritten]
      rfl
    have hcut : '<' :: '/' :: rest =
        '<' :: '/' :: rest.takeWhile Text.isNameChar ++ rest.dropWhile Text.isNameChar := by
      simp [List.takeWhile_append_dropWhile]
    refine ⟨seemsEnd_iff.2 ⟨_, _, hcut, htag⟩, fun c hc => ?_⟩
    rw [← htag, List.length_map, hcut, List.drop_left] at hc
    have hhead := List.head?_dropWhile_not Text.isNameChar rest
    rw [hc] at hhead
    exact hhead

end

/-! ## Elements of a tree -/

/-- The start tag whose name starts the text. -/
def readTag (size : Nat) (start : List Char) : ReadTag :=
  attributes size (start.dropWhile Text.isNameChar)

/-- The element has the name and the start tag that are read behind a `<` of the source. Unless the tag
closes itself, the contents of the element are what is behind the tag, up to where its end seems to be. -/
def Element.HasBody (source : List Char) (e : Element) (children : List Node) : Prop :=
  ∃ start, '<' :: start <:+ source ∧ e.name = String.ofList (start.takeWhile Text.isNameChar) ∧
    let tag := readTag (byteSize source) start
    let body := rawBody e.name tag.rest
    let behind := tag.rest.drop body.length
    e.startSpan = spanBetween (byteSize source) ('<' :: start) tag.rest ∧
      (tag.tagEnd ≠ .selfClosed → e.contentsStop = offsetOf (byteSize source) behind ∧
        children = if contentModel e.name = .rawText ∧ body ≠ [] then
          [.text (String.ofList body) (spanBetween (byteSize source) tag.rest behind)] else [])

/-- All elements at the node and below it have the bodies that their start tags say, if their contents are
not markup. -/
def Node.HasBodies (source : List Char) (node : Node) : Prop :=
  ∀ b ∈ node.elements, contentModel b.1.name ≠ .markup → b.1.HasBody source b.2

/-- Elements that are always empty are markup. -/
theorem contentModel_of_isVoid {name : String} (h : isVoid name = true) : contentModel name = .markup := by
  have hall : ∀ v ∈ voidElements, contentModel v = .markup := by decide
  obtain ⟨v, hv, hsame⟩ := List.any_eq_true.1 h
  have hlower : Text.lowerAscii name = Text.lowerAscii v :=
    congrArg String.ofList (beq_iff_eq.1 hsame).symm
  rw [contentModel, hlower]
  exact hall v hv

/-- Texts have no body, be they put together or not. -/
theorem joins_hasBodies (source : List Char) : Joins (Node.HasBodies source) := fun _ _ _ _ _ _ _ => nofun

section

variable {source : List Char}

/-- An element without elements inside has its body if it has one of its own. -/
theorem hasBodies_leaf {e : Element} {children : List Node} (hchildren : elementsOf children = [])
    (h : contentModel e.name ≠ .markup → e.HasBody source children) :
    (Node.element e children).HasBodies source := by
  rw [Node.HasBodies, Node.elements, hchildren]
  exact List.forall_mem_singleton.2 h

/-- Elements whose contents are markup have no such body. -/
theorem each_startTag {name : String} (hname : contentModel name = .markup) (attributes : List Attribute)
    (span : Span) : (Piece.startTag name attributes span).Each (Node.HasBodies source) := by
  intro span endSpan children hchildren
  rw [Node.HasBodies, Node.elements]
  refine List.forall_mem_cons.2 ⟨fun hnot => absurd hname hnot, fun b hb => ?_⟩
  obtain ⟨node, hnode, hb⟩ := mem_elementsOf.1 hb
  exact hchildren node hnode b hb

/-- An element that is cut off has its body. -/
theorem each_cutElement {cs : List Char} (hs : '<' :: cs <:+ source) :
    ∀ p ∈ (cutElement (byteSize source) ('<' :: cs) cs).1, p.Each (Node.HasBodies source) := by
  simp only [cutElement]
  split
  · next hcomplete =>
    refine forall_problems (fun _ _ => trivial) (List.forall_mem_singleton.2 ?_)
    refine hasBodies_leaf rfl fun hmodel => ?_
    have hself : (readTag (byteSize source) cs).tagEnd = .selfClosed := by
      rcases Bool.or_eq_true_iff.1 hcomplete with hself | hvoid
      · exact of_decide_eq_true hself
      · exact absurd (contentModel_of_isVoid hvoid) hmodel
    exact ⟨cs, hs, rfl, rfl, fun hnot => absurd hself hnot⟩
  · split
    · next hmodel =>
      exact forall_problems (fun _ _ => trivial)
        (List.forall_mem_singleton.2 (each_startTag hmodel _ _))
    · refine forall_problems (fun _ _ => trivial) (List.forall_mem_singleton.2 ?_)
      refine hasBodies_leaf ?_ fun _ => ?_
      · split <;> rfl
      · refine ⟨cs, hs, rfl, rfl, fun _ => ⟨contentsStop_raw .., ?_⟩⟩
        simp only [Bool.and_eq_true, decide_eq_true_eq, Bool.not_eq_true', List.isEmpty_eq_false_iff,
          ne_eq]
        rfl

/-- What is cut off from the front of a source has its bodies. -/
theorem each_cutPiece {c : Char} {cs : List Char} (hs : c :: cs <:+ source) :
    ∀ p ∈ (cutPiece (byteSize source) c cs).1, p.Each (Node.HasBodies source) := by
  unfold cutPiece
  split
  · unfold cutComment
    split
    · exact List.forall_mem_singleton.2 nofun
    · exact List.forall_mem_cons.2 ⟨trivial, List.forall_mem_singleton.2 nofun⟩
  · exact nofun
  · exact nofun
  · split
    · exact List.forall_mem_singleton.2 trivial
    · split
      · next hopen =>
        obtain ⟨hc, -⟩ := Bool.and_eq_true_iff.1 hopen
        obtain rfl := of_decide_eq_true hc
        exact each_cutElement hs
      · exact List.forall_mem_singleton.2 nofun

end

/-- The elements of a tree have their bodies. -/
theorem hasBodies_ofSource (source : List Char) :
    ∀ node ∈ (Tree.ofSource source).nodes, node.HasBodies source :=
  forall_nodes_ofSource (joins_hasBodies source)
    (forall_piecesFrom (fun _ _ => each_cutPiece) (List.suffix_refl source))

/-- Every element of every tree whose contents are not markup, unless its start tag closes it: behind the
start tag there is its body, up to the first place that looks like its end, or to the end of the source.
The body ends where it should if and only if nothing is behind it, or what is behind it is read as an end
tag with the name of the element. -/
theorem rawBody_ends (source : List Char) {e : Element} {children : List Node}
    (he : (e, children) ∈ elementsOf (Tree.ofSource source).nodes) (hmodel : contentModel e.name ≠ .markup) :
    ∃ before start, source = before ++ '<' :: start ∧ e.startSpan.start = byteSize before ∧
      e.name = String.ofList (start.takeWhile Text.isNameChar) ∧
      let read := readTag (byteSize source) start
      (read.tagEnd ≠ .selfClosed → ∃ tag body behind,
        '<' :: start = tag ++ body ++ behind ∧ read.rest = body ++ behind ∧
        e.startSpan.stop = byteSize (before ++ tag) ∧ e.contentsStop = byteSize (before ++ tag ++ body) ∧
        children = (if contentModel e.name = .rawText ∧ body ≠ [] then
          [.text (String.ofList body) ⟨e.startSpan.stop, e.contentsStop⟩] else []) ∧
        UpTo (SeemsEnd e.name) body behind ∧
        (UpTo (IsEnd e.name) body behind ↔ behind = [] ∨ ∃ rest, behind = '<' :: '/' :: rest ∧
          Text.sameIgnoringCase (String.ofList (rest.takeWhile Text.isNameChar)) e.name = true)) := by
  obtain ⟨node, hnode, he⟩ := mem_elementsOf.1 he
  have hhas : e.HasBody source children := hasBodies_ofSource source node hnode _ he hmodel
  obtain ⟨start, ⟨before, rfl⟩, hname, hspan, hbody⟩ := hhas
  -- Offsets count from the start of the source, and are known by what is in front of them.
  have hoffset (front rest : List Char) (h : '<' :: start = front ++ rest) :
      offsetOf (byteSize (before ++ '<' :: start)) rest = byteSize (before ++ front) := by
    rw [h, ← List.append_assoc, offsetOf_append]
  refine ⟨before, start, rfl, ?_, hname, fun hopen => ?_⟩
  · rw [hspan]
    exact offsetOf_append before _
  obtain ⟨hcontents, hchildren⟩ := hbody hopen
  have hrest : (readTag (byteSize (before ++ '<' :: start)) start).rest <:+ '<' :: start :=
    (attributes_suffix _ _).trans ((List.dropWhile_suffix _).trans (List.suffix_cons _ _))
  obtain ⟨tag, htag⟩ := hrest
  have hcut := rawBody_append e.name (readTag (byteSize (before ++ '<' :: start)) start).rest
  have hupto := upTo_rawBody e.name (readTag (byteSize (before ++ '<' :: start)) start).rest
  have hall := htag.symm
  rw [hcut, ← List.append_assoc] at hall
  have htagName : IsTagName e.name := by
    rw [IsTagName, hname, String.toList_ofList]
    exact fun c hc => List.all_eq_true.1 List.all_takeWhile c hc
  refine ⟨tag, _, _, hall, hcut, ?_, ?_, ?_, hupto, ?_⟩
  · rw [hspan]
    exact hoffset tag _ htag.symm
  · rw [hcontents, List.append_assoc]
    exact hoffset _ _ hall
  · rw [hcontents, hspan]
    exact hchildren
  · rw [hupto.isEnd_iff, isEnd_iff htagName]

/-- A title whose end tag is written in upper case, with another end tag in it. -/
theorem rawBody_ends_title :
    let e : Element := ⟨"Title", [], ⟨0, 20⟩, ⟨0, 7⟩, some ⟨12, 20⟩⟩
    ∃ children, (e, children) ∈ elementsOf (Tree.ofSource "<Title>a</b></TITLE>!".toList).nodes ∧
      contentModel e.name ≠ .markup ∧ childTexts children = [("a</b>", ⟨7, 12⟩)] ∧
      UpTo (IsEnd e.name) "a</b>".toList "</TITLE>!".toList := by
  intro e
  have hlist : (elementsOf (Tree.ofSource "<Title>a</b></TITLE>!".toList).nodes).map
      (fun b => (b.1, childTexts b.2)) = [(e, [("a</b>", ⟨7, 12⟩)])] := by decide +kernel
  obtain ⟨b, hb, heq⟩ := List.mem_map.1 (hlist ▸ List.mem_singleton_self _)
  obtain ⟨he, htexts⟩ := Prod.mk.inj heq
  have hmem : (e, b.2) ∈ elementsOf (Tree.ofSource "<Title>a</b></TITLE>!".toList).nodes := he ▸ hb
  have hmodel : contentModel e.name ≠ .markup := by decide
  refine ⟨b.2, hmem, hmodel, htexts, ?_⟩
  obtain ⟨before, start, hsource, hzero, -, hbody⟩ := rawBody_ends _ hmem hmodel
  obtain rfl : before = [] := Text.eq_nil_of_byteSize hzero.symm
  obtain rfl : "Title>a</b></TITLE>!".toList = start := (List.cons.inj hsource).2
  have hread : (readTag 21 "Title>a</b></TITLE>!".toList).tagEnd ≠ .selfClosed ∧
      (readTag 21 "Title>a</b></TITLE>!".toList).rest = "a</b></TITLE>!".toList := by decide +kernel
  obtain ⟨tag, body, behind, -, hrest, -, -, hchildren, -, hends⟩ := hbody hread.1
  have hvalue : String.ofList body = "a</b>" := by
    rw [hchildren] at htexts
    split at htexts
    · exact congrArg Prod.fst (List.cons.inj htexts).1
    · cases htexts
  obtain rfl : body = "a</b>".toList := by rw [← hvalue, String.toList_ofList]
  have hcut : "a</b>".toList ++ "</TITLE>!".toList = "a</b>".toList ++ behind := hread.2.symm.trans hrest
  obtain rfl := List.append_cancel_left hcut
  exact hends.2 (.inr ⟨"TITLE>!".toList, rfl, by decide⟩)

/-- The body ends in front of the end tag of an element with a longer name. -/
theorem exists_body_too_short :
    let nodes := (Tree.ofSource "<title>a</titles>b</title>".toList).nodes
    (elementsOf nodes).map (fun b => (b.1.name, b.1.contentsStop, childTexts b.2)) =
        [("title", 8, [("a", ⟨7, 8⟩)])] ∧
      ¬ UpTo (IsEnd "title") "a".toList "</titles>b</title>".toList ∧
      UpTo (IsEnd "title") "a</titles>b".toList "</title>".toList := by
  decide +kernel

end Stencil.Markup
