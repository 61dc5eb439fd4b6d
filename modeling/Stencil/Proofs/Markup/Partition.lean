import Stencil.Proofs.Basic
import Stencil.Proofs.Markup.Harvest
import Stencil.Proofs.Markup.Pieces
import Mathlib.Data.List.Basic

/-!
# The tree accounts for its source

**The law** (`partition_ofSource`): the tree of every source, however malformed, accounts for the
source. Its nodes are laid out in the source; every comment and every start tag that is scanned is in
it, once and in the order of the source; every end tag is either at the element it closes or in the
report that it closes nothing; and texts that the source does not separate are one text (`Partition`).

What is scanned is told by the pieces of the source (`Piece.comment?`, `Piece.startTag?`,
`Piece.endTag?`), before any nesting. A draft accounts for the pieces pushed so far
(`Draft.Accounts`): what is harvested from it, with what is open and what was reported, is what the
pieces hold. Each piece keeps this (`Draft.Accounts.push`), and at the end of the source nothing is
open any more (`Draft.harvest_finish`).

End tags need more care than the others: the element that an end tag closes may have been opened long
before, so their order in the tree is not that of the source. They are compared as a whole, by the
order of their spans (`LaidPieces.pairwise`).

**What it does not establish.** Which elements an end tag should close is a matter of the elements'
names and not part of the partition.
-/

namespace Stencil.Markup

open Text (byteSize)

/-! ## What is scanned -/

/-- What a start tag says, and where it stands. -/
structure StartTag where
  name : String
  attributes : List Attribute
  span : Span

/-- The start tag of an element. -/
def Element.startTag (e : Element) : StartTag := ⟨e.name, e.attributes, e.startSpan⟩

/-- The end tag that is reported to close nothing. -/
def MarkupError.endTag? (error : MarkupError) : Option Span :=
  match error.problem with
  | .unexpectedEndTag _ => some error.span
  | _ => none

namespace Piece

/-- The comment that was scanned. -/
def comment? : Piece → Option (String × Span)
  | .comment value span => some (String.ofList value, span)
  | _ => none

/-- The start tag that was scanned, alone or with the whole element. -/
def startTag? : Piece → Option StartTag
  | .startTag name attributes span => some ⟨name, attributes, span⟩
  | .element (.element e _) => some e.startTag
  | _ => none

/-- The end tag that was scanned, alone or with the whole element. -/
def endTag? : Piece → Option Span
  | .endTag _ span => some span
  | .element (.element e _) => e.endSpan
  | _ => none

end Piece

/-- The comment has its opening and its end around it, or the source has no end of a comment behind the
opening and the comment is all the rest. -/
def Delimited (source : List Char) (value : String) (span : Span) : Prop :=
  span.Holds source ("<!--".toList ++ value.toList ++ "-->".toList) ∨
    span.Holds source ("<!--".toList ++ value.toList) ∧ span.stop = byteSize source ∧
      Text.cutAt "-->".toList value.toList = none

/-- What the scanner promises of a piece besides its place. -/
def Piece.Scanned (source : List Char) : Piece → Prop
  | .element node => ∃ e children, node = .element e children ∧
      (children = [] ∨ ∃ value span, children = [.text value span])
  | .comment value span => Delimited source (String.ofList value) span
  | .problem error => error.endTag? = none
  | .text .. | .startTag .. | .endTag .. => True

section

variable {source : List Char}

/-- A problem with an attribute is no end tag. -/
theorem endTag?_attribute? {size : Nat} {cs : List Char} {a : ReadAttribute}
    (h : attribute? size cs = some a) : ∀ error ∈ a.errors, error.endTag? = none := by
  unfold attribute? at h
  split at h
  · cases h
  · split at h
    · obtain rfl := Option.some.inj h
      intro error herror
      simp only [valuedAttribute] at herror
      split at herror
      · cases herror
      · rw [List.mem_singleton.1 herror]
        rfl
    · obtain rfl := Option.some.inj h
      exact List.forall_mem_nil _

/-- Problems with attributes are no end tags. -/
theorem endTag?_attributes (size : Nat) (cs : List Char) :
    ∀ error ∈ (attributes size cs).errors, error.endTag? = none := by
  fun_induction attributes size cs with
  | case1 | case2 | case3 => exact List.forall_mem_nil _
  | case4 cs c rest _ _ h _ a ha _ ih =>
    exact List.forall_mem_append.2 ⟨endTag?_attribute? ha, ih⟩
  | case5 _ _ _ _ _ _ _ _ _ ih => exact ih

/-- What an element is cut into holds only tags of its own. -/
theorem scanned_cutElement (size : Nat) (start cs : List Char) :
    ∀ p ∈ (cutElement size start cs).1, p.Scanned source := by
  have hattributes := endTag?_attributes size (cs.dropWhile Text.isNameChar)
  have herrors {name : String} {span : Span} : ∀ error ∈
      (attributes size (cs.dropWhile Text.isNameChar)).reported name span, error.endTag? = none := by
    intro error herror
    rcases ReadTag.mem_reported herror with herror | ⟨-, rfl⟩
    · exact hattributes error herror
    · rfl
  simp only [cutElement]
  split
  · refine forall_problems herrors (List.forall_mem_singleton.2 ?_)
    exact ⟨_, _, rfl, .inl rfl⟩
  · split
    · exact forall_problems herrors (List.forall_mem_singleton.2 trivial)
    · refine forall_problems herrors (List.forall_mem_singleton.2 ⟨_, _, rfl, ?_⟩)
      split
      · exact .inr ⟨_, _, rfl⟩
      · exact .inl rfl

/-- A comment is scanned as one. -/
theorem scanned_cutComment {cs : List Char} (hs : "<!--".toList ++ cs <:+ source) :
    ∀ p ∈ (cutComment (byteSize source) ("<!--".toList ++ cs) cs).1, p.Scanned source := by
  unfold cutComment
  split
  · next value rest h =>
    have hcut : "<!--".toList ++ cs = "<!--".toList ++ value ++ "-->".toList ++ rest := by
      simpa using Text.eq_of_cutAt h
    have hvalue : (String.ofList value).toList = value := String.toList_ofList
    refine List.forall_mem_singleton.2 (.inl ?_)
    rw [hvalue]
    exact holds_spanBetween hs hcut
  · next h =>
    have hholds := holds_spanBetween hs (List.append_nil ("<!--".toList ++ cs)).symm
    have hvalue : (String.ofList cs).toList = cs := String.toList_ofList
    refine List.forall_mem_cons.2 ⟨rfl, List.forall_mem_singleton.2 (.inr ?_)⟩
    rw [hvalue]
    exact ⟨hholds, Nat.sub_zero _, h⟩

/-- What is cut off from the front of a source is scanned. -/
theorem scanned_cutPiece {c : Char} {cs : List Char} (hs : c :: cs <:+ source) :
    ∀ p ∈ (cutPiece (byteSize source) c cs).1, p.Scanned source := by
  unfold cutPiece
  split
  · exact scanned_cutComment hs
  · exact nofun
  · exact nofun
  · split
    · exact List.forall_mem_singleton.2 trivial
    · split
      · exact scanned_cutElement _ _ _
      · exact List.forall_mem_singleton.2 trivial

/-- All pieces of a source are scanned. -/
theorem scanned_piecesFrom {cs : List Char} (hs : cs <:+ source) :
    ∀ p ∈ piecesFrom (byteSize source) cs, p.Scanned source :=
  forall_piecesFrom (fun _ _ => scanned_cutPiece) hs

end

/-! ## What a draft accounts for -/

/-- Takes the comments. -/
def commentHarvest : Harvest (String × Span) := ⟨fun value span => [(value, span)], fun _ => []⟩

/-- Takes the start tags. -/
def startTagHarvest : Harvest StartTag := ⟨fun _ _ => [], fun e => [e.startTag]⟩

/-- Takes the end tags. -/
def endTagHarvest : Harvest Span := ⟨fun _ _ => [], fun e => e.endSpan.toList⟩

/-- The pieces are all in the draft: its comments and start tags are theirs, in their order, and their
end tags are those of its elements and those it reports. -/
structure Draft.Accounts (ps : List Piece) (d : Draft) : Prop where
  unended : ∀ e ∈ d.openElements, e.endSpan = none
  parted : d.Parted
  comments : d.harvest commentHarvest = ps.filterMap Piece.comment?
  startTags : d.harvest startTagHarvest = ps.filterMap Piece.startTag?
  endTags : (d.harvest endTagHarvest ++ d.errors.filterMap MarkupError.endTag?).Perm
    (ps.filterMap Piece.endTag?)

section

variable {source : List Char} {ps : List Piece} {d : Draft}

/-- What a draft takes, and the end tags it reports. -/
def Draft.endTags (d : Draft) : List Span :=
  d.harvest endTagHarvest ++ d.errors.filterMap MarkupError.endTag?

/-- One more piece, and what it adds. -/
theorem Draft.Accounts.step {d' : Draft} {p : Piece} (h : d.Accounts ps)
    (hunended : ∀ e ∈ d'.openElements, e.endSpan = none) (hparted : d'.Parted)
    (hcomments : d'.harvest commentHarvest = d.harvest commentHarvest ++ p.comment?.toList)
    (hstartTags : d'.harvest startTagHarvest = d.harvest startTagHarvest ++ p.startTag?.toList)
    (hendTags : d'.endTags.Perm (d.endTags ++ p.endTag?.toList)) : d'.Accounts (ps ++ [p]) := by
  refine ⟨hunended, hparted, ?_, ?_, ?_⟩
  · rw [filterMap_concat, hcomments, h.comments]
  · rw [filterMap_concat, hstartTags, h.startTags]
  · rw [filterMap_concat]
    exact hendTags.trans (h.endTags.append_right _)

/-- Adding a node adds its end tags. -/
theorem Draft.endTags_add (node : Node) :
    (d.add node).endTags.Perm (d.endTags ++ node.harvest endTagHarvest) := by
  rw [Draft.endTags, Draft.endTags, harvest_add, Draft.add, errors_mapContents, List.append_assoc,
    List.append_assoc]
  exact List.perm_append_comm.append_left _

/-- A text has no tags. -/
theorem Draft.Accounts.text (h : d.Accounts ps) (value : List Char) (span : Span) :
    (d.addText (String.ofList value) span).Accounts (ps ++ [.text value span]) := by
  have hharvest {β : Type} (f : Harvest β) :
      (d.addText (String.ofList value) span).harvest f = d.harvest f ++ [] := by
    rw [harvest_addText, List.append_nil]
  refine h.step ?_ (h.parted.addText _ _) (hharvest _) (hharvest _) ?_
  · rw [Draft.addText, openElements_mapContents]
    exact h.unended
  · rw [Draft.endTags, hharvest, Draft.addText, errors_mapContents, List.append_nil]
    exact .of_eq (List.append_nil _).symm

/-- A comment is accounted for. -/
theorem Draft.Accounts.comment (h : d.Accounts ps) (value : List Char) (span : Span) :
    (d.add (.comment (String.ofList value) span)).Accounts (ps ++ [.comment value span]) := by
  refine h.step ?_ (h.parted.add trivial ?_) (harvest_add _) (harvest_add _) (endTags_add _)
  · rw [Draft.add, openElements_mapContents]
    exact h.unended
  · rintro last ⟨_, _, _, _, -, heq, -⟩
    cases heq

/-- An element that is complete in itself is accounted for with its tags. -/
theorem Draft.Accounts.element {e : Element} {children : List Node} (h : d.Accounts ps)
    (hchildren : children = [] ∨ ∃ value span, children = [.text value span]) :
    (d.add (.element e children)).Accounts (ps ++ [.element (.element e children)]) := by
  have hharvest {β : Type} (f : Harvest β) :
      (Node.element e children).harvest f = f.element e := by
    rcases hchildren with rfl | ⟨value, span, rfl⟩ <;> exact List.append_nil _
  have hnode : (Node.element e children).Parted := by
    rcases hchildren with rfl | ⟨value, span, rfl⟩
    · trivial
    · exact ⟨trivial, nofun, trivial⟩
  have hadd {β : Type} (f : Harvest β) :
      (d.add (.element e children)).harvest f = d.harvest f ++ f.element e := by
    rw [harvest_add, hharvest]
  refine h.step ?_ (h.parted.add hnode fun _ => Node.not_continues_element) (hadd _) (hadd _) ?_
  · rw [Draft.add, openElements_mapContents]
    exact h.unended
  · have hperm := endTags_add (d := d) (.element e children)
    rwa [hharvest] at hperm

/-- The end tag of the innermost element is accounted for there. -/
theorem Draft.Accounts.closed {e : OpenElement} {opened : List OpenElement} {name : String} {tag : Span}
    (h : d.Accounts ps) (hd : d.opened = e :: opened) :
    (d.closeBy tag).Accounts (ps ++ [.endTag name tag]) := by
  have hnone : e.element.endSpan = none := h.unended _ (by simp [Draft.openElements, hd])
  refine h.step ?_ (h.parted.closeBy tag) ?_ ?_ ?_
  · rw [openElements_closeBy]
    exact fun e he => h.unended e (List.mem_of_mem_tail he)
  · rw [harvest_closeBy hd, harvest_opened hd]
    exact (List.append_nil _).symm
  · rw [harvest_closeBy hd, harvest_opened hd]
    exact (List.append_nil _).symm
  · have hopened := harvest_opened (f := endTagHarvest) hd
    have hempty : endTagHarvest.element e.element = [] := congrArg Option.toList hnone
    rw [hempty, List.nil_append] at hopened
    rw [Draft.endTags, Draft.endTags, harvest_closeBy hd, errors_closeBy, hopened]
    exact (List.perm_middle.append_right _).trans (List.perm_append_singleton tag _).symm

/-- Closing elements loses nothing. -/
theorem Draft.Accounts.closeInner (h : d.Accounts ps) (stop count : Nat) :
    (d.closeInner stop count).Accounts ps := by
  refine ⟨?_, h.parted.closeInner stop count, ?_, ?_, ?_⟩
  · rw [openElements_closeInner]
    exact fun e he => h.unended e (List.mem_of_mem_drop he)
  · rw [harvest_closeInner fun _ _ => rfl]
    exact h.comments
  · rw [harvest_closeInner fun _ _ => rfl]
    exact h.startTags
  · rw [harvest_closeInner fun _ _ => rfl, errors_closeInner]
    exact h.endTags

/-- A draft accounts for one more piece when that piece is pushed. -/
theorem Draft.Accounts.push {p : Piece} (h : d.Accounts ps) (hp : p.Scanned source) :
    (d.push p).Accounts (ps ++ [p]) := by
  cases p with
  | text value span => exact h.text value span
  | comment value span => exact h.comment value span
  | element node =>
    obtain ⟨e, children, rfl, hchildren⟩ := hp
    exact h.element hchildren
  | problem error =>
    have hnone : error.endTag? = none := hp
    refine h.step h.unended h.parted (List.append_nil _).symm (List.append_nil _).symm ?_
    rw [Draft.endTags, Draft.push, Draft.report, List.filterMap_cons, hnone]
    exact .of_eq (List.append_nil _).symm
  | startTag name attributes span =>
    refine h.step (List.forall_mem_cons.2 ⟨rfl, h.unended⟩) ?_ ?_ ?_ ?_
    · exact ⟨h.parted.1, List.forall_mem_cons.2 ⟨trivial, h.parted.2⟩⟩
    · exact harvest_open _
    · exact harvest_open _
    · rw [Draft.endTags, Draft.push, harvest_open]
      exact .of_eq (congrArg (· ++ _) (List.append_nil _) |>.trans (List.append_nil _).symm)
  | endTag name span =>
    simp only [Draft.push]
    -- An end tag closes the innermost open element of its name with all that are open inside; without
    -- one it is a problem.
    split
    · next inner hinner =>
      have hlt : inner < d.opened.length := (List.findIdx?_eq_some_iff_findIdx_eq.1 hinner).1
      have hopen := openElements_closeInner span.start inner d
      cases hd : (d.closeInner span.start inner).opened with
      | nil =>
        have hlength := congrArg List.length hopen
        simp [Draft.openElements, hd] at hlength
        omega
      | cons e opened => exact (h.closeInner span.start inner).closed hd
    · refine h.step h.unended h.parted (List.append_nil _).symm (List.append_nil _).symm ?_
      exact (List.perm_middle).trans (List.perm_append_singleton span _).symm

/-- A draft accounts for more pieces when they are pushed, by induction on the pieces. -/
theorem Draft.Accounts.pushAll {qs : List Piece} (h : d.Accounts ps)
    (hqs : ∀ q ∈ qs, q.Scanned source) : (qs.foldl Draft.push d).Accounts (ps ++ qs) := by
  induction qs generalizing d ps with
  | nil => rwa [List.append_nil]
  | cons q qs ih =>
    obtain ⟨hq, hqs⟩ := List.forall_mem_cons.1 hqs
    have hrest := ih (h.push hq) hqs
    rwa [List.append_assoc] at hrest

/-- The tree accounts for all that its draft does. -/
theorem Draft.harvest_finish {β : Type} {f : Harvest β}
    (hf : ∀ e stop, f.element { e with span := ⟨e.span.start, stop⟩ } = f.element e) (size : Nat)
    (d : Draft) : harvestOf f (d.finish size).nodes = d.harvest f := by
  have hopen := openElements_closeInner size d.opened.length d
  have hnil : (d.closeInner size d.opened.length).opened = [] := by
    have hlength := congrArg List.length hopen
    simpa [Draft.openElements] using hlength
  rw [← harvest_closeInner hf size d.opened.length d, Draft.harvest, hnil]
  exact (List.append_nil _).symm

/-! ## The partition -/

/-- Spans that stand in different pieces are in the order of the pieces. -/
theorem LaidPieces.pairwise {α : Type} {f : Piece → Option α} {start : α → Nat} {lo hi : Nat}
    (hf : ∀ p lo hi a, p.Laid source lo hi → f p = some a → lo ≤ start a ∧ start a < hi)
    (h : LaidPieces source lo hi ps) :
    (ps.filterMap f).Pairwise (fun a b => start a < start b) ∧
      ∀ a ∈ ps.filterMap f, lo ≤ start a := by
  induction ps generalizing lo with
  | nil => exact ⟨.nil, nofun⟩
  | cons p ps ih =>
    obtain ⟨mid, hp, hps⟩ := h
    obtain ⟨hpairs, hafter⟩ := ih hps
    have hle := hp.le
    rw [List.filterMap_cons]
    split
    · exact ⟨hpairs, fun a ha => Nat.le_trans hle (hafter a ha)⟩
    · next a ha =>
      obtain ⟨hlo, hmid⟩ := hf p lo mid a hp ha
      refine ⟨List.pairwise_cons.2 ⟨fun b hb => Nat.lt_of_lt_of_le hmid (hafter b hb), hpairs⟩, ?_⟩
      exact List.forall_mem_cons.2 ⟨hlo, fun b hb => Nat.le_trans hle (hafter b hb)⟩

/-- The start tag of a piece lies in the piece. -/
theorem Piece.Laid.startTag {lo hi : Nat} {p : Piece} {tag : StartTag} (h : p.Laid source lo hi)
    (htag : p.startTag? = some tag) : lo ≤ tag.span.start ∧ tag.span.start < hi := by
  cases p with
  | startTag name attributes span =>
    obtain rfl := Option.some.inj htag
    obtain ⟨htagged, hlo, hhi⟩ := h
    exact ⟨hlo, Nat.lt_of_lt_of_le htagged.cuts.proper hhi⟩
  | element node =>
    cases node with
    | element e children =>
      obtain rfl := Option.some.inj htag
      obtain ⟨hnode, hlo, hhi⟩ := h
      rw [Node.Laid] at hnode
      obtain ⟨hcuts, htagged, -⟩ := hnode
      have hproper := hcuts.proper
      simp only [Node.span, Element.startTag, ← htagged.begins] at hlo hhi ⊢
      omega
    | _ => cases htag
  | _ => cases htag

/-- The end tag of a piece lies in the piece. -/
theorem Piece.Laid.endTag {lo hi : Nat} {p : Piece} {tag : Span} (h : p.Laid source lo hi)
    (htag : p.endTag? = some tag) : lo ≤ tag.start ∧ tag.start < hi := by
  cases p with
  | endTag name span =>
    obtain rfl := Option.some.inj htag
    obtain ⟨hcuts, hlo, hhi⟩ := h
    exact ⟨hlo, Nat.lt_of_lt_of_le hcuts.proper hhi⟩
  | element node =>
    cases node with
    | element e children =>
      have hend : e.endSpan = some tag := htag
      obtain ⟨hnode, hlo, hhi⟩ := h
      rw [Node.Laid] at hnode
      obtain ⟨-, htagged, hended, hchildren⟩ := hnode
      obtain ⟨hcuts, hstop⟩ := hended tag hend
      have hinside := hchildren.le
      have hproper := htagged.cuts.proper
      have htagProper := hcuts.proper
      have hbegins := htagged.begins
      simp only [Node.span] at hlo hhi
      simp only [Element.contentsStop, hend, Option.map_some, Option.getD_some] at hinside
      omega
    | _ => cases htag
  | _ => cases htag

/-- The tree is a partition of its source: its nodes are laid out in it, texts that touch are one text,
and everything that is scanned is in the tree once. Comments and start tags are those of the source in
their order; each end tag is that of one element or is reported once. -/
structure Partition (source : List Char) (tree : Tree) : Prop where
  laid : Laid source 0 (byteSize source) tree.nodes
  parted : Parted tree.nodes
  comments : harvestOf commentHarvest tree.nodes = (pieces source).filterMap Piece.comment?
  delimited : ∀ comment ∈ harvestOf commentHarvest tree.nodes, Delimited source comment.1 comment.2
  startTags : (elementsOf tree.nodes).map (·.1.startTag) = (pieces source).filterMap Piece.startTag?
  startTags_ordered : ((pieces source).filterMap Piece.startTag?).Pairwise
    fun s t => s.span.start < t.span.start
  endTags : ((elementsOf tree.nodes).filterMap (·.1.endSpan) ++
    tree.errors.filterMap MarkupError.endTag?).Perm ((pieces source).filterMap Piece.endTag?)
  endTags_ordered : ((pieces source).filterMap Piece.endTag?).Pairwise fun s t => s.start < t.start

/-- The tree of every source, however malformed, is a partition of it. -/
theorem partition_ofSource (source : List Char) : Partition source (Tree.ofSource source) := by
  have hscanned := scanned_piecesFrom (List.suffix_refl source)
  have hempty : ({} : Draft).Accounts [] := ⟨nofun, ⟨trivial, nofun⟩, rfl, rfl, .nil⟩
  have haccounts : ((pieces source).foldl Draft.push {}).Accounts (pieces source) :=
    hempty.pushAll hscanned
  have hlaid := laid_pieces source
  have hcomments : harvestOf commentHarvest (Tree.ofSource source).nodes =
      (pieces source).filterMap Piece.comment? := by
    rw [Tree.ofSource, Draft.harvest_finish fun _ _ => rfl, haccounts.comments]
  refine ⟨laid_ofSource source, ?_, hcomments, ?_, ?_, ?_, ?_, ?_⟩
  · exact (haccounts.parted.closeInner _ _).1
  · rw [hcomments]
    intro comment hcomment
    obtain ⟨p, hp, hpcomment⟩ := List.mem_filterMap.1 hcomment
    cases p with
    | comment value span =>
      obtain rfl := Option.some.inj hpcomment
      exact hscanned _ hp
    | _ => cases hpcomment
  · have hstarts := haccounts.startTags
    rw [← Draft.harvest_finish (fun _ _ => rfl) (byteSize source), startTagHarvest,
      harvestOf_elements] at hstarts
    rw [← hstarts]
    exact List.map_eq_flatMap
  · exact (hlaid.pairwise fun _ _ _ _ => Piece.Laid.startTag).1
  · have hends := haccounts.endTags
    rw [← Draft.harvest_finish (fun _ _ => rfl) (byteSize source), endTagHarvest,
      harvestOf_elements, ← List.filterMap_eq_flatMap_toList] at hends
    refine List.Perm.trans (List.Perm.append_left _ ?_) hends
    have herrors : (Tree.ofSource source).errors =
        ((pieces source).foldl Draft.push {}).errors.reverse :=
      congrArg List.reverse (Draft.errors_closeInner _ _ _)
    rw [herrors, List.filterMap_reverse]
    exact List.reverse_perm _
  · exact (hlaid.pairwise fun _ _ _ _ => Piece.Laid.endTag).1

end

end Stencil.Markup
