import Stencil.Proofs.Markup.RawText

/-!
# Sources that are cut alike

A source with new texts in it is cut into pieces like the source: the same pieces follow each other,
with the new texts in them, and with nothing between two of them where there was nothing. `CutAlike`
says so of what is left of two sources, and **the result** (`exists_cutAlike`) is that for new texts
that fit there is such a source.

It is built from the end of the source to its front, one piece at a time: `Recut` says of a piece,
given the new text behind it, that with some text in front it is cut again. What a piece needs to know
of the text behind it is its front, and whether there are closing braces in it (`SameFront`,
Proofs/Markup/Refill), so new texts there do no harm. There is one lemma for each kind of piece:
`recut_comment`, `recut_declaration`, `recut_endTag` copy it (`Recut.copy`); `recut_complete`,
`recut_startTag` and `recut_raw` give the attributes of an element their new values
(Proofs/Markup/Revalue) and a body its new insides (Proofs/Markup/RawText); `recut_text` refills a
text.

**What it does not establish.** That the pieces give a tree of the same outline is
Proofs/Markup/Reread.
-/

namespace Stencil.Markup

open Text (byteSize)

/-- What changes in a piece. -/
def Piece.edits (new : NewTexts) : Piece → List Edit
  | .text value span => fillEdits new.inside span.start value
  | .startTag _ attributes _ => attributes.flatMap new.edits
  | .element node => node.edits new
  | .comment .. | .endTag .. | .problem _ => []

/-- Two pieces, of which the second one is the first one with new texts. -/
def Piece.Again (new : NewTexts) : Piece → Piece → Prop
  | .comment value _, .comment value' _ => value' = value
  | .startTag name attributes _, .startTag name' attributes' _ => name' = name ∧
    attributes'.map (·.outline (·.value)) = attributes.map (·.outline new.valueOf)
  | .endTag name _, .endTag name' _ => name' = name
  | .element (.element e nodes), .element (.element e' nodes') =>
    (Node.element e' nodes').outline (·.value) (fun _ t => t) =
      (Node.element e nodes).outline new.valueOf (refill new.inside)
  | _, _ => False

/-- What is left of two sources, of `size` and `size'` bytes, is cut into these pieces, the second ones
with new texts. Between pieces, something may be passed over. -/
inductive CutAlike (new : NewTexts) (size size' : Nat) :
    (cs cs' : List Char) → (ps ps' : List Piece) → Prop
  | nil : CutAlike new size size' [] [] [] []
  | pass {cs cs' rest rest' : List Char} {ps ps' : List Piece} :
    offsetOf size cs < offsetOf size rest → offsetOf size' cs' < offsetOf size' rest' →
    CutAlike new size size' rest rest' ps ps' → CutAlike new size size' cs cs' ps ps'
  | problem {cs cs' : List Char} {ps ps' : List Piece} (e : MarkupError) :
    CutAlike new size size' cs cs' ps ps' → CutAlike new size size' cs cs' (.problem e :: ps) ps'
  | problem' {cs cs' : List Char} {ps ps' : List Piece} (e : MarkupError) :
    CutAlike new size size' cs cs' ps ps' → CutAlike new size size' cs cs' ps (.problem e :: ps')
  | piece {cs cs' rest rest' : List Char} {p p' : Piece} {ps ps' : List Piece} : p.Again new p' →
    offsetOf size cs < offsetOf size rest → offsetOf size' cs' < offsetOf size' rest' →
    CutAlike new size size' rest rest' ps ps' →
    CutAlike new size size' cs cs' (p :: ps) (p' :: ps')
  /-- A text: no marker reaches over its end. -/
  | text {value rest value' rest' : List Char} {ps ps' : List Piece} :
    value' = refill new.inside (offsetOf size (value ++ rest)) value →
    Settled new.inside (offsetOf size (value ++ rest)) value rest →
    offsetOf size (value ++ rest) + byteSize value = offsetOf size rest →
    offsetOf size (value ++ rest) < offsetOf size rest →
    offsetOf size' (value' ++ rest') < offsetOf size' rest' →
    CutAlike new size size' rest rest' ps ps' →
    CutAlike new size size' (value ++ rest) (value' ++ rest')
      (.text value (spanBetween size (value ++ rest) rest) :: ps)
      (.text value' (spanBetween size' (value' ++ rest') rest') :: ps')

/-- Problems in front of the pieces change nothing. -/
theorem CutAlike.problems {new : NewTexts} {size size' : Nat} {cs cs' : List Char}
    {ps ps' : List Piece} (es es' : List MarkupError) (h : CutAlike new size size' cs cs' ps ps') :
    CutAlike new size size' cs cs' (es.map .problem ++ ps) (es'.map .problem ++ ps') := by
  induction es with
  | nil =>
    induction es' with
    | nil => exact h
    | cons e es' ih => exact .problem' e ih
  | cons e es ih => exact .problem e ih

/-- The same text in front of texts with the same front. -/
theorem SameFront.append {rest rest' : List Char} (h : SameFront rest rest') (front : List Char) :
    SameFront (front ++ rest) (front ++ rest') := by
  induction front with
  | nil => exact h
  | cons c front ih => exact ih.cons

/-- A rest of the source behind a character starts later. -/
theorem offsetOf_lt {size : Nat} {c : Char} {cs rest : List Char} (h : rest <:+ cs)
    (hfits : byteSize (c :: cs) ≤ size) : offsetOf size (c :: cs) < offsetOf size rest := by
  have hle := Text.byteSize_le_of_suffix h
  have hpos := c.utf8Size_pos
  rw [Text.byteSize_cons] at hfits
  rw [offsetOf, offsetOf, Text.byteSize_cons]
  omega

variable {new : NewTexts} {size : Nat} {es : List Edit} {c : Char} {cs rest' : List Char}

/-- The piece at the front of `c :: cs`, and the text that is put in its place in front of `rest'`. -/
structure Recut (new : NewTexts) (size : Nat) (es : List Edit) (c : Char)
    (cs rest' cs' : List Char) : Prop where
  rewritten : Rewritten size ((cutPiece size c cs).1.flatMap (·.edits new) ++ es) (c :: cs) (c :: cs')
  front : SameFront (c :: cs) (c :: cs')
  rest : ∀ size', (cutPiece size' c cs').2 = rest'
  alike : ∀ size' ps ps', byteSize (c :: cs') ≤ size' →
    CutAlike new size size' (cutPiece size c cs).2 rest' ps ps' →
    CutAlike new size size' (c :: cs) (c :: cs') ((cutPiece size c cs).1 ++ ps)
      ((cutPiece size' c cs').1 ++ ps')

/-! ## Comments, declarations and end tags -/

/-- A piece that has nothing to change is copied, with whatever is in front of `rest`. Its cut depends on
what is behind it only where the source ends. -/
theorem Recut.copy {rest : List Char} (front : List Char) (ps : Nat → List Char → List Piece)
    (hcut : ∀ size rest', (rest = [] → rest' = []) →
      cutPiece size c (front ++ rest') = (ps size rest', rest'))
    (hedits : (ps size rest).flatMap (·.edits new) = [])
    (halike : ∀ size' qs qs', offsetOf size (c :: (front ++ rest)) < offsetOf size rest →
      offsetOf size' (c :: (front ++ rest')) < offsetOf size' rest' →
      CutAlike new size size' rest rest' qs qs' →
      CutAlike new size size' (c :: (front ++ rest)) (c :: (front ++ rest')) (ps size rest ++ qs)
        (ps size' rest' ++ qs'))
    (hfits : byteSize (c :: (front ++ rest)) ≤ size)
    (hrest : Rewritten size es (cutPiece size c (front ++ rest)).2 rest')
    (hfront : SameFront (cutPiece size c (front ++ rest)).2 rest') :
    ∃ cs', Recut new size es c (front ++ rest) rest' cs' := by
  rw [hcut size rest id] at hrest hfront
  have hcut' (size' : Nat) := hcut size' rest' fun h => (h ▸ hfront).nil
  have hcopy : Rewritten size es ((c :: front) ++ rest) ((c :: front) ++ rest') := hrest.copy hfits
  refine ⟨front ++ rest', ?_, hfront.append (c :: front), fun size' => ?_, ?_⟩
  · rw [hcut size rest id, hedits]
    exact hcopy
  · rw [hcut']
  · intro size' qs qs' hfits' h
    rw [hcut size rest id] at h ⊢
    rw [hcut']
    exact halike size' qs qs' (offsetOf_lt (List.suffix_append front rest) hfits)
      (offsetOf_lt (List.suffix_append front rest') hfits') h

/-- What starts a comment is cut off as one. -/
theorem cutPiece_comment (size : Nat) (text : List Char) :
    cutPiece size '<' ('!' :: '-' :: '-' :: text) =
      cutComment size ('<' :: '!' :: '-' :: '-' :: text) text := rfl

/-- A comment is cut again as it is. -/
theorem recut_comment {text : List Char} (hfits : byteSize ('<' :: '!' :: '-' :: '-' :: text) ≤ size)
    (hrest : Rewritten size es (cutPiece size '<' ('!' :: '-' :: '-' :: text)).2 rest')
    (hfront : SameFront (cutPiece size '<' ('!' :: '-' :: '-' :: text)).2 rest') :
    ∃ cs', Recut new size es '<' ('!' :: '-' :: '-' :: text) rest' cs' := by
  cases h : Text.cutAt ['-', '-', '>'] text with
  | none =>
    rw [← List.append_nil text] at hfits hrest hfront ⊢
    refine Recut.copy ('!' :: '-' :: '-' :: text) (fun size rest =>
      [.problem ⟨.unterminatedComment, spanBetween size ('<' :: '!' :: '-' :: '-' :: (text ++ rest)) []⟩,
        .comment text (spanBetween size ('<' :: '!' :: '-' :: '-' :: (text ++ rest)) [])])
      ?_ rfl ?_ hfits hrest hfront
    · intro size rest hnil
      obtain rfl := hnil rfl
      simp only [List.append_nil, cutPiece_comment, cutComment, h]
    · intro size' qs qs' hlt hlt' halike
      exact .problem _ (.problem' _ (.piece rfl hlt hlt' halike))
  | some found =>
    obtain ⟨value, rest⟩ := found
    obtain ⟨rfl, hfirst⟩ := (Text.cutAt_eq_some (List.cons_ne_nil _ _)).1 h
    refine Recut.copy ('!' :: '-' :: '-' :: (value ++ ['-', '-', '>'])) (fun size rest =>
      [.comment value (spanBetween size
        ('<' :: '!' :: '-' :: '-' :: (value ++ ['-', '-', '>'] ++ rest)) rest)])
      ?_ rfl ?_ hfits hrest hfront
    · intro size rest _
      show cutPiece size '<' ('!' :: '-' :: '-' :: (value ++ ['-', '-', '>'] ++ rest)) = _
      rw [cutPiece_comment, cutComment, (Text.cutAt_eq_some (List.cons_ne_nil _ _)).2 ⟨rfl, hfirst⟩]
    · intro size' qs qs' hlt hlt' halike
      exact .piece rfl hlt hlt' halike

/-- A declaration or an instruction is cut again as it is. -/
theorem recut_declaration {d : Char} {text : List Char} (hd : d = '!' ∨ d = '?')
    (hno : d = '!' → ¬ ['-', '-'] <+: text) (hfits : byteSize ('<' :: d :: text) ≤ size)
    (hrest : Rewritten size es (cutPiece size '<' (d :: text)).2 rest')
    (hfront : SameFront (cutPiece size '<' (d :: text)).2 rest') :
    ∃ cs', Recut new size es '<' (d :: text) rest' cs' := by
  have hpass (size : Nat) {text : List Char} (hno : d = '!' → ¬ ['-', '-'] <+: text) :
      cutPiece size '<' (d :: text) = ([], afterTag text) := by
    rcases hd with rfl | rfl
    · unfold cutPiece
      split
      · next rest _ heq =>
        obtain ⟨-, rfl⟩ := List.cons.inj heq
        exact absurd ⟨rest, rfl⟩ (hno rfl)
      · next heq =>
        obtain ⟨-, rfl⟩ := List.cons.inj heq
        rfl
      · next heq => cases heq
      · next hdecl _ => exact absurd rfl (hdecl _ rfl)
    · rfl
  obtain ⟨upto, hupto, hend, hagain⟩ := exists_afterTag text
  generalize hrestEq : afterTag text = rest at hupto hend hagain
  subst hupto
  refine Recut.copy (d :: upto) (fun _ _ => []) ?_ rfl ?_ hfits hrest hfront
  · intro size rest' hnil
    rw [List.cons_append, hpass, hagain rest' hnil]
    intro hbang hdashes
    rcases hend with ⟨front, rfl⟩ | hnone
    · -- the two dashes would stand before the end of the declaration
      cases front with
      | nil => simp [List.cons_prefix_cons] at hdashes
      | cons a front =>
        cases front with
        | nil => simp [List.cons_prefix_cons] at hdashes
        | cons b front =>
          apply hno hbang
          simpa [List.cons_prefix_cons] using hdashes
    · rw [hnil hnone] at hdashes
      exact hno hbang (by rwa [hnone])
  · intro size' qs qs' hlt hlt' halike
    exact .pass hlt hlt' halike

/-- A tag name, and what is behind it. The name starts with a letter, so it is not empty. -/
structure TagCut (name behind : List Char) : Prop where
  isName : ∀ c ∈ name, Text.isNameChar c = true
  ends : ∀ c, behind.head? = some c → Text.isNameChar c = false
  letter : ∀ more, startsWithLetter (name ++ more) = true

/-- A tag that starts with a letter has a name. -/
theorem exists_tagCut {text : List Char} (h : startsWithLetter text = true) :
    ∃ name behind, text = name ++ behind ∧ TagCut name behind := by
  obtain ⟨name, behind, rfl, hname, hbehind⟩ := Text.exists_run Text.isNameChar text
  refine ⟨name, behind, rfl, hname, hbehind, fun more => ?_⟩
  cases name with
  | nil =>
    cases behind with
    | nil => cases h
    | cons c behind =>
      have hletter : Text.isLetter c = true := h
      have hname := hbehind c rfl
      simp [Text.isNameChar, hletter] at hname
  | cons d name => exact h

/-- The name is the longest run of characters of a name. -/
theorem TagCut.takeWhile {name behind : List Char} (h : TagCut name behind) :
    (name ++ behind).takeWhile Text.isNameChar = name :=
  Text.takeWhile_run h.isName h.ends

/-- The name is left behind with all of its characters. -/
theorem TagCut.dropWhile {name behind : List Char} (h : TagCut name behind) :
    (name ++ behind).dropWhile Text.isNameChar = behind :=
  Text.dropWhile_run h.isName h.ends

/-- What starts an end tag is cut off as one. -/
theorem cutPiece_endTag {text : List Char} (h : startsWithLetter text = true) :
    cutPiece size '<' ('/' :: text) = cutEndTag size ('<' :: '/' :: text) text := by
  simp [cutPiece, h]

/-- An end tag is cut again as it is. -/
theorem recut_endTag {text : List Char} (hletter : startsWithLetter text = true)
    (hfits : byteSize ('<' :: '/' :: text) ≤ size)
    (hrest : Rewritten size es (cutPiece size '<' ('/' :: text)).2 rest')
    (hfront : SameFront (cutPiece size '<' ('/' :: text)).2 rest') :
    ∃ cs', Recut new size es '<' ('/' :: text) rest' cs' := by
  obtain ⟨name, behind, rfl, hname⟩ := exists_tagCut hletter
  obtain ⟨upto, hupto, hend, hagain⟩ := exists_afterTag behind
  generalize hrestEq : afterTag behind = rest at hupto hend hagain
  subst hupto
  -- The name ends at the same place in front of any rest, unless nothing follows.
  have hname' (rest' : List Char) (hnil : rest = [] → rest' = []) : TagCut name (upto ++ rest') := by
    refine ⟨hname.isName, ?_, hname.letter⟩
    cases upto with
    | nil =>
      obtain ⟨front, hfront⟩ | hnone := hend
      · simp at hfront
      · rw [hnil hnone]
        rintro _ ⟨⟩
    | cons d upto => exact hname.ends
  have hcut (size : Nat) (rest' : List Char) (hnil : rest = [] → rest' = []) :
      cutPiece size '<' ('/' :: (name ++ (upto ++ rest'))) =
        ([.endTag (String.ofList name) (spanBetween size ('<' :: '/' :: (name ++ (upto ++ rest'))) rest')],
          rest') := by
    rw [cutPiece_endTag (hname.letter _), cutEndTag, (hname' rest' hnil).takeWhile,
      (hname' rest' hnil).dropWhile, hagain rest' hnil]
  rw [← List.append_assoc] at hfits hrest hfront ⊢
  refine Recut.copy ('/' :: (name ++ upto)) (fun size rest' => [.endTag (String.ofList name)
    (spanBetween size ('<' :: '/' :: (name ++ (upto ++ rest'))) rest')]) ?_ rfl ?_ hfits hrest hfront
  · intro size rest' hnil
    rw [List.cons_append, List.append_assoc]
    exact hcut size rest' hnil
  · intro size' qs qs' hlt hlt' halike
    exact .piece rfl hlt hlt' halike

/-! ## Elements -/

/-- A `<` in front of a letter starts an element. -/
theorem cutPiece_element (h : startsWithLetter cs = true) :
    cutPiece size '<' cs = cutElement size ('<' :: cs) cs := by
  cases cs with
  | nil => cases h
  | cons d cs =>
    have hd : d ≠ '!' ∧ d ≠ '?' ∧ d ≠ '/' := by
      refine ⟨?_, ?_, ?_⟩ <;>
      · rintro rfl
        revert h
        rw [startsWithLetter]
        decide
    unfold cutPiece
    split
    · next heq => exact absurd (List.cons.inj heq).1 hd.1
    · next heq => exact absurd (List.cons.inj heq).1 hd.1
    · next heq => exact absurd (List.cons.inj heq).1 hd.2.1
    · rw [if_neg (by simp [hd.2.2]), if_pos (by simp [h])]

section

variable {name behind : List Char}

/-- The problems of the start tag behind the name. -/
def tagProblems (size : Nat) (start name behind : List Char) : List MarkupError :=
  (attributes size behind).reported (String.ofList name)
    (spanBetween size start (attributes size behind).rest)

/-- The element is complete with its start tag. -/
theorem cutElement_complete (start : List Char) (h : TagCut name behind)
    (hcomplete : (attributes size behind).tagEnd = .selfClosed ∨ isVoid (String.ofList name) = true) :
    cutElement size start (name ++ behind) = ((tagProblems size start name behind).map .problem ++
      [.element (.element ⟨String.ofList name, (attributes size behind).attributes,
        spanBetween size start (attributes size behind).rest,
        spanBetween size start (attributes size behind).rest, none⟩ [])],
        (attributes size behind).rest) := by
  simp only [cutElement, h.takeWhile, h.dropWhile]
  rw [if_pos (by simpa using hcomplete)]
  rfl

/-- The start tag of an element whose contents are markup is cut off by itself. -/
theorem cutElement_markup (start : List Char) (h : TagCut name behind)
    (hopen : ¬ ((attributes size behind).tagEnd = .selfClosed ∨ isVoid (String.ofList name) = true))
    (hmodel : contentModel (String.ofList name) = .markup) :
    cutElement size start (name ++ behind) = ((tagProblems size start name behind).map .problem ++
      [.startTag (String.ofList name) (attributes size behind).attributes
        (spanBetween size start (attributes size behind).rest)], (attributes size behind).rest) := by
  simp only [cutElement, h.takeWhile, h.dropWhile]
  rw [if_neg (by simpa using hopen), hmodel]
  rfl

/-- An element whose contents are not markup is cut off as a whole. -/
theorem cutElement_raw (start : List Char) (h : TagCut name behind)
    (hopen : ¬ ((attributes size behind).tagEnd = .selfClosed ∨ isVoid (String.ofList name) = true))
    (hmodel : contentModel (String.ofList name) ≠ .markup) :
    cutElement size start (name ++ behind) = ((tagProblems size start name behind).map .problem ++
      [.element (rawElement size (String.ofList name) (attributes size behind).attributes start
        (attributes size behind).rest (contentModel (String.ofList name)))],
        afterRaw (String.ofList name) (attributes size behind).rest) := by
  simp only [cutElement, h.takeWhile, h.dropWhile]
  rw [if_neg (by simpa using hopen)]
  cases hm : contentModel (String.ofList name) with
  | markup => exact absurd hm hmodel
  | raw => rfl
  | rawText => rfl

/-- A start tag is read again in front of another text, with the new values of its attributes. -/
theorem exists_startTag (hnew : new.Fit) (h : TagCut name behind)
    (hfits : byteSize ('<' :: (name ++ behind)) ≤ size)
    (hrest : Rewritten size es (attributes size behind).rest rest')
    (hfront : SameFront (attributes size behind).rest rest') :
    ∃ behind', TagCut name behind' ∧
      Rewritten size ((attributes size behind).attributes.flatMap new.edits ++ es)
        ('<' :: (name ++ behind)) ('<' :: (name ++ behind')) ∧
      SameFront ('<' :: (name ++ behind)) ('<' :: (name ++ behind')) ∧ ∀ size',
        (attributes size' behind').rest = rest' ∧
        (attributes size' behind').tagEnd = (attributes size behind).tagEnd ∧
        (attributes size' behind').attributes.map (·.outline (·.value)) =
          (attributes size behind).attributes.map (·.outline new.valueOf) := by
  have hbehind : byteSize behind ≤ size :=
    Nat.le_trans (Text.byteSize_le_of_suffix (List.suffix_append ('<' :: name) behind)) hfits
  obtain ⟨behind', hrewritten, hsame, hagain⟩ := attributes_rewritten hnew hbehind hrest hfront
  have hhead : (name ++ behind').head? = (name ++ behind).head? := by
    rw [List.head?_append, hsame.head, ← List.head?_append]
  refine ⟨behind', ⟨h.isName, by rw [hsame.head]; exact h.ends, h.letter⟩, ?_, ⟨rfl, ?_, ?_⟩, hagain⟩
  · have hcopy : Rewritten size _ (('<' :: name) ++ behind) (('<' :: name) ++ behind') :=
      hrewritten.copy hfits
    exact hcopy
  · exact mayStartMarkup_cons hhead
  · -- no character of the name is a brace
    have hbrace : ∀ c ∈ '<' :: name, c ∉ ['\x7d', '\x7d'] := by
      intro c hc
      rcases List.mem_cons.1 hc with rfl | hc
      · decide
      · exact not_brace (h.isName c hc) rfl
    rw [← List.cons_append, ← List.cons_append,
      Text.infix_append_of_disjoint (List.cons_ne_nil _ _) hbrace,
      Text.infix_append_of_disjoint (List.cons_ne_nil _ _) hbrace]
    exact hsame.closing

end

/-- A piece, perhaps with problems in front of it, is cut again with its new texts. -/
theorem Recut.again {cs' rest : List Char} {errors : List MarkupError} {p : Piece}
    (hcut : cutPiece size c cs = (errors.map .problem ++ [p], rest))
    (hfits : byteSize (c :: cs) ≤ size)
    (hrewritten : Rewritten size (p.edits new ++ es) (c :: cs) (c :: cs'))
    (hfront : SameFront (c :: cs) (c :: cs'))
    (hagain : ∀ size', ∃ errors' p', cutPiece size' c cs' = (List.map .problem errors' ++ [p'], rest') ∧
      p.Again new p') :
    Recut new size es c cs rest' cs' := by
  have hsuffix := cutPiece_suffix size c cs
  rw [hcut] at hsuffix
  refine ⟨?_, hfront, fun size' => ?_, fun size' ps ps' hfits' h => ?_⟩
  · have hnone : (errors.map Piece.problem).flatMap (·.edits new) = [] := by
      rw [List.flatMap_map]
      exact List.flatMap_eq_nil_iff.2 fun _ _ => rfl
    rw [hcut, List.flatMap_append, hnone, List.nil_append, List.flatMap_singleton]
    exact hrewritten
  · obtain ⟨errors', p', hcut', -⟩ := hagain size'
    rw [hcut']
  · obtain ⟨errors', p', hcut', hp⟩ := hagain size'
    have hsuffix' := cutPiece_suffix size' c cs'
    rw [hcut'] at hsuffix'
    rw [hcut] at h ⊢
    rw [hcut', List.append_assoc, List.append_assoc]
    exact .problems _ _ (.piece hp (offsetOf_lt hsuffix hfits) (offsetOf_lt hsuffix' hfits') h)

/-- The body of an element afterwards: only a text gets new insides. -/
def newBody (new : NewTexts) (model : ContentModel) (offset : Nat) (body : List Char) : List Char :=
  if model = .rawText then refill new.inside offset body else body

/-- What changes in the body of an element. -/
def bodyEdits (new : NewTexts) (model : ContentModel) (offset : Nat) (body : List Char) : List Edit :=
  if model = .rawText then fillEdits new.inside offset body else []

section

variable {model : ContentModel} {offset : Nat} {body : List Char}

/-- The new body is the body with its edits applied. -/
theorem newBody_rewrites :
    Edit.Rewrites offset body (bodyEdits new model offset body) (newBody new model offset body) := by
  unfold newBody bodyEdits
  split
  · exact refill_rewrites offset body
  · exact .keep _ _

/-- A new body has the front of the body. -/
theorem SameFront.newBody {rest rest' : List Char} (h : SameFront rest rest') :
    SameFront (body ++ rest) (Markup.newBody new model offset body ++ rest') := by
  unfold Markup.newBody
  split
  · exact h.refill offset
  · exact h.append body

/-- A new body does not look like the end tag anywhere. -/
theorem LacksEnd.newBody {name : String} (hnew : new.Fit) (hname : IsTagName name)
    (h : LacksEnd name body) : LacksEnd name (Markup.newBody new model offset body) := by
  unfold Markup.newBody
  split
  · exact h.refill hnew.tags hname offset
  · exact h

end

/-- The edits of an element whose contents are not markup: its attributes, then its body. -/
theorem edits_rawElement {name : String} {attrs : List Attribute} {start text : List Char}
    {model : ContentModel} :
    (rawElement size name attrs start text model).edits new =
      attrs.flatMap new.edits ++ bodyEdits new model (offsetOf size text) (rawBody name text) := by
  unfold bodyEdits
  rw [rawElement, Node.edits]
  congr 1
  by_cases hmodel : model = .rawText
  · cases hbody : rawBody name text with
    | nil => simp [hmodel, editsOf, fillEdits, markersFrom]
    | cons c body => simp [hmodel, editsOf, Node.edits, spanBetween]
  · simp [hmodel, editsOf]

/-- An element whose contents are not markup, with new values and a new body. -/
theorem outline_rawElement {size' : Nat} {name : String} {attrs attrs' : List Attribute}
    {start start' text text' : List Char} {model : ContentModel}
    (hattrs : attrs'.map (·.outline (·.value)) = attrs.map (·.outline new.valueOf))
    (hbody : rawBody name text' = newBody new model (offsetOf size text) (rawBody name text)) :
    (rawElement size' name attrs' start' text' model).outline (·.value) (fun _ t => t) =
      (rawElement size name attrs start text model).outline new.valueOf (refill new.inside) := by
  rw [rawElement, rawElement, Node.outline, Node.outline, hattrs, hbody, newBody]
  congr 1
  by_cases hmodel : model = .rawText
  · have hnil : refill new.inside (offsetOf size text) (rawBody name text) = [] ↔
        rawBody name text = [] := refill_eq_nil
    cases h : rawBody name text with
    | nil => simp [hmodel, outlines, refill, refillFrom]
    | cons c body =>
      rw [h] at hnil
      simp [hmodel, outlines, Node.outline, spanBetween, hnil]
  · simp [hmodel, outlines]

/-- The text behind a start tag whose contents are not markup is read again with its new body. -/
theorem exists_newBody {name : String} (model : ContentModel) {text : List Char} (hnew : new.Fit)
    (hname : IsTagName name) (hfits : byteSize text ≤ size)
    (hrest : Rewritten size es (afterRaw name text) rest')
    (hfront : SameFront (afterRaw name text) rest') :
    ∃ text', Rewritten size (bodyEdits new model (offsetOf size text) (rawBody name text) ++ es)
        text text' ∧ SameFront text text' ∧
      rawBody name text' = newBody new model (offsetOf size text) (rawBody name text) ∧
      afterRaw name text' = rest' := by
  obtain ⟨body, tag, htext, hbody, hlacks, hagain⟩ := exists_rawBody hname text
  generalize afterRaw name text = rest at *
  obtain ⟨hbody', hafter'⟩ := hagain _ rest'
    (LacksEnd.newBody hnew hname hlacks)
    fun hnil => (hnil ▸ hfront).nil
  rw [hbody]
  refine ⟨_, ?_, ?_, hbody', hafter'⟩
  · have hrewrites : Edit.Rewrites (offsetOf size text) body
        (bodyEdits new model (offsetOf size text) body) _ := newBody_rewrites
    have htag : byteSize (tag ++ rest) ≤ size := by
      rw [htext] at hfits
      exact Nat.le_trans (Text.byteSize_le_of_suffix (List.suffix_append body (tag ++ rest))) hfits
    rw [htext] at hfits hrewrites ⊢
    exact (hrest.copy htag).append hfits hrewrites
  · nth_rewrite 1 [htext]
    exact (hfront.append tag).newBody

section

variable {name behind : List Char}

/-- An element that its start tag completes is cut again with its new values. -/
theorem recut_complete (hnew : new.Fit) (h : TagCut name behind)
    (hcomplete : (attributes size behind).tagEnd = .selfClosed ∨ isVoid (String.ofList name) = true)
    (hfits : byteSize ('<' :: (name ++ behind)) ≤ size)
    (hrest : Rewritten size es (cutPiece size '<' (name ++ behind)).2 rest')
    (hfront : SameFront (cutPiece size '<' (name ++ behind)).2 rest') :
    ∃ cs', Recut new size es '<' (name ++ behind) rest' cs' := by
  have hcut := cutElement_complete ('<' :: (name ++ behind)) h hcomplete
  rw [← cutPiece_element (h.letter _)] at hcut
  rw [hcut] at hrest hfront
  obtain ⟨behind', h', hrewritten, hsame, hagain⟩ := exists_startTag hnew h hfits hrest hfront
  refine ⟨name ++ behind', .again hcut hfits ?_ hsame fun size' => ?_⟩
  · simpa [Piece.edits, Node.edits, editsOf] using hrewritten
  · obtain ⟨hstop, hend, houtlines⟩ := hagain size'
    have hcut' := cutElement_complete ('<' :: (name ++ behind')) h' (by rwa [hend])
    rw [cutPiece_element (h'.letter _)]
    rw [hstop] at hcut'
    refine ⟨_, _, hcut', ?_⟩
    simp [Piece.Again, Node.outline, outlines, houtlines]

/-- The start tag of an element whose contents are markup is cut again with its new values. -/
theorem recut_startTag (hnew : new.Fit) (h : TagCut name behind)
    (hopen : ¬ ((attributes size behind).tagEnd = .selfClosed ∨ isVoid (String.ofList name) = true))
    (hmodel : contentModel (String.ofList name) = .markup)
    (hfits : byteSize ('<' :: (name ++ behind)) ≤ size)
    (hrest : Rewritten size es (cutPiece size '<' (name ++ behind)).2 rest')
    (hfront : SameFront (cutPiece size '<' (name ++ behind)).2 rest') :
    ∃ cs', Recut new size es '<' (name ++ behind) rest' cs' := by
  have hcut := cutElement_markup ('<' :: (name ++ behind)) h hopen hmodel
  rw [← cutPiece_element (h.letter _)] at hcut
  rw [hcut] at hrest hfront
  obtain ⟨behind', h', hrewritten, hsame, hagain⟩ := exists_startTag hnew h hfits hrest hfront
  refine ⟨name ++ behind', .again hcut hfits hrewritten hsame fun size' => ?_⟩
  obtain ⟨hstop, hend, houtlines⟩ := hagain size'
  have hcut' := cutElement_markup ('<' :: (name ++ behind')) h' (by rwa [hend]) hmodel
  rw [cutPiece_element (h'.letter _)]
  rw [hstop] at hcut'
  exact ⟨_, _, hcut', rfl, houtlines⟩

/-- An element whose contents are not markup is cut again with its new values and its new body. -/
theorem recut_raw (hnew : new.Fit) (h : TagCut name behind)
    (hopen : ¬ ((attributes size behind).tagEnd = .selfClosed ∨ isVoid (String.ofList name) = true))
    (hmodel : contentModel (String.ofList name) ≠ .markup)
    (hfits : byteSize ('<' :: (name ++ behind)) ≤ size)
    (hrest : Rewritten size es (cutPiece size '<' (name ++ behind)).2 rest')
    (hfront : SameFront (cutPiece size '<' (name ++ behind)).2 rest') :
    ∃ cs', Recut new size es '<' (name ++ behind) rest' cs' := by
  have hcut := cutElement_raw ('<' :: (name ++ behind)) h hopen hmodel
  rw [← cutPiece_element (h.letter _)] at hcut
  rw [hcut] at hrest hfront
  have hname : IsTagName (String.ofList name) := by
    intro c hc
    rw [String.toList_ofList] at hc
    exact h.isName c hc
  have hbehind : byteSize (attributes size behind).rest ≤ size :=
    Nat.le_trans (Text.byteSize_le_of_suffix
      ((attributes_suffix size behind).trans (List.suffix_append ('<' :: name) behind))) hfits
  obtain ⟨text', hbodyRewritten, hbodySame, hbody, hafter⟩ :=
    exists_newBody (contentModel (String.ofList name)) hnew hname hbehind hrest hfront
  obtain ⟨behind', h', hrewritten, hsame, hagain⟩ :=
    exists_startTag hnew h hfits hbodyRewritten hbodySame
  refine ⟨name ++ behind', .again hcut hfits ?_ hsame fun size' => ?_⟩
  · rw [Piece.edits, edits_rawElement, List.append_assoc]
    exact hrewritten
  · obtain ⟨hstop, hend, houtlines⟩ := hagain size'
    have hcut' := cutElement_raw ('<' :: (name ++ behind')) h' (by rwa [hend]) hmodel
    rw [cutPiece_element (h'.letter _)]
    rw [hstop, hafter] at hcut'
    exact ⟨_, _, hcut', outline_rawElement houtlines hbody⟩

end

/-- An element, or the start tag of one, is cut again. -/
theorem recut_element (hnew : new.Fit) (hletter : startsWithLetter cs = true)
    (hfits : byteSize ('<' :: cs) ≤ size) (hrest : Rewritten size es (cutPiece size '<' cs).2 rest')
    (hfront : SameFront (cutPiece size '<' cs).2 rest') :
    ∃ cs', Recut new size es '<' cs rest' cs' := by
  obtain ⟨name, behind, rfl, htag⟩ := exists_tagCut hletter
  by_cases hcomplete : (attributes size behind).tagEnd = .selfClosed ∨ isVoid (String.ofList name) = true
  · exact recut_complete hnew htag hcomplete hfits hrest hfront
  · by_cases hmodel : contentModel (String.ofList name) = .markup
    · exact recut_startTag hnew htag hcomplete hmodel hfits hrest hfront
    · exact recut_raw hnew htag hcomplete hmodel hfits hrest hfront

/-! ## Texts -/

/-- No tag, comment or declaration stands at the front. -/
def StartsText (c : Char) (cs : List Char) : Prop :=
  c = '<' → startsWithLetter cs = false ∧ cs.head? ≠ some '!' ∧ cs.head? ≠ some '?' ∧
    (cs.head? = some '/' → startsWithLetter (cs.drop 1) = false)

/-- What starts no markup is cut off as a text. -/
theorem cutPiece_text (h : StartsText c cs) : cutPiece size c cs =
    ([.text (cutText 0 true (c :: cs)).1
      (spanBetween size (c :: cs) (cutText 0 true (c :: cs)).2)], (cutText 0 true (c :: cs)).2) := by
  unfold cutPiece
  split
  · exact absurd rfl (h rfl).2.1
  · exact absurd rfl (h rfl).2.1
  · exact absurd rfl (h rfl).2.2.1
  · by_cases hc : c = '<'
    · obtain ⟨hletter, -, -, hslash⟩ := h hc
      rw [if_neg ?_, if_neg (by simp [hletter])]
      intro hend
      simp only [Bool.and_eq_true, decide_eq_true_eq] at hend
      rw [hslash hend.1.2] at hend
      cases hend.2
    · rw [if_neg (by simp [hc]), if_neg (by simp [hc])]

/-- Whether a text starts with a letter is told by its first character. -/
theorem startsWithLetter_eq {cs' : List Char} (h : cs'.head? = cs.head?) :
    startsWithLetter cs' = startsWithLetter cs := by
  cases cs with
  | nil => rw [List.head?_eq_none_iff.1 h]
  | cons d cs =>
    obtain ⟨more, rfl⟩ := List.head?_eq_some_iff.1 h
    rfl

/-- A text that is cut off from the source still starts as a text when it is refilled. -/
theorem StartsText.refill {fill : Span → Option (List Char)} {value rest : List Char}
    (h : StartsText c cs) (hcut : TextCut true value rest) (hall : value ++ rest = c :: cs)
    (hrest : SameFront rest rest') (offset : Nat) :
    ∃ cs', Markup.refill fill offset value ++ rest' = c :: cs' ∧ StartsText c cs' := by
  have hfront : SameFront (value ++ rest) (Markup.refill fill offset value ++ rest') :=
    hrest.refill offset
  rw [hall] at hfront
  obtain ⟨cs', heq⟩ := List.head?_eq_some_iff.1 hfront.head
  refine ⟨cs', heq, ?_⟩
  rintro rfl
  obtain ⟨hletter, hbang, hmark, hslash⟩ := h rfl
  have hopen (c : Char) (hc : c ≠ '\x7b') (more : List Char) : markerInside? (c :: more) = none := by
    simp [markerInside?, hc]
  cases hcut with
  | last => cases hall
  | marker => cases hall
  | @char _ d value _ _ _ htail =>
    obtain rfl : d = '<' := (List.cons.inj hall).1
    obtain rfl : value ++ rest = cs := (List.cons.inj hall).2
    rw [refill_char (hopen '<' (by decide) _)] at heq
    obtain rfl : Markup.refill fill (offset + '<'.utf8Size) value ++ rest' = cs' :=
      (List.cons.inj heq).2
    have htail' : SameFront (value ++ rest)
        (Markup.refill fill (offset + '<'.utf8Size) value ++ rest') := hrest.refill _
    have hhead := htail'.head
    rw [hhead, startsWithLetter_eq hhead]
    refine ⟨hletter, hbang, hmark, fun hstart => ?_⟩
    -- the slash belongs to the text, as no text ends before a slash
    cases htail with
    | last => cases hstart
    | stop hmarkup =>
      obtain ⟨more, rfl⟩ := List.head?_eq_some_iff.1 hstart
      cases hmarkup
    | marker => cases hstart
    | @char _ d value _ _ _ _ =>
      obtain rfl : d = '/' := Option.some.inj hstart
      have hbehind : SameFront (value ++ rest)
          (Markup.refill fill (offset + '<'.utf8Size + '/'.utf8Size) value ++ rest') := hrest.refill _
      rw [refill_char (hopen '/' (by decide) _), ← hslash hstart]
      exact startsWithLetter_eq hbehind.head

/-- A text is cut again with the new insides of its markers. -/
theorem recut_text (hnew : new.Fit) (hstart : StartsText c cs) (hfits : byteSize (c :: cs) ≤ size)
    (hrest : Rewritten size es (cutPiece size c cs).2 rest')
    (hfront : SameFront (cutPiece size c cs).2 rest') :
    ∃ cs', Recut new size es c cs rest' cs' := by
  rw [cutPiece_text hstart] at hrest hfront
  have hcut := textCut_cutText true (c :: cs)
  have hall := cutText_append 0 true (c :: cs)
  have hpiece : cutPiece size c cs = _ := cutPiece_text hstart
  have hsuffix := cutPiece_suffix size c cs
  rw [hpiece] at hsuffix
  rcases hvalue : cutText 0 true (c :: cs) with ⟨value, rest⟩
  rw [hvalue] at hrest hfront hcut hall hpiece hsuffix
  dsimp only at hrest hfront hcut hall hpiece hsuffix
  let offset := offsetOf size (c :: cs)
  obtain ⟨cs', hall', hstart'⟩ : ∃ cs', refill new.inside offset value ++ rest' = c :: cs' ∧ _ :=
    hstart.refill hcut hall hfront offset
  have hcut' : TextCut true (refill new.inside offset value) rest' :=
    hcut.refill hnew.insides hfront offset
  have hvalue' := hcut'.cutText_eq
  rw [hall'] at hvalue'
  have hpiece' (size' : Nat) : cutPiece size' c cs' = _ := cutPiece_text hstart'
  rw [hvalue'] at hpiece'
  refine ⟨cs', ?_, ?_, fun size' => ?_, fun size' ps ps' hfits' h => ?_⟩
  · rw [hpiece, ← hall, ← hall']
    rw [← hall] at hfits
    have hrewrites : Edit.Rewrites (offsetOf size (value ++ rest)) value
        (fillEdits new.inside offset value) (refill new.inside offset value) := by
      rw [hall]
      exact refill_rewrites offset value
    simpa [Piece.edits, spanBetween, hall] using hrest.append hfits hrewrites
  · rw [← hall, ← hall']
    exact hfront.refill offset
  · rw [hpiece']
  · have hsuffix' := cutPiece_suffix size' c cs'
    rw [hpiece'] at hsuffix' ⊢
    rw [hpiece] at h ⊢
    have hlt := offsetOf_lt hsuffix hfits
    have hlt' := offsetOf_lt hsuffix' hfits'
    have hsettled := hcut.settled hnew.insides offset
    dsimp only [offset] at hall' hsettled ⊢
    rw [← hall] at hlt hfits hsettled hall' ⊢
    rw [← hall'] at hlt' ⊢
    exact .text rfl hsettled (offsetOf_add hfits) hlt hlt' h

/-! ## All pieces -/

/-- Whatever stands at the front of a source is cut again. -/
theorem exists_recut (hnew : new.Fit) (hfits : byteSize (c :: cs) ≤ size)
    (hrest : Rewritten size es (cutPiece size c cs).2 rest')
    (hfront : SameFront (cutPiece size c cs).2 rest') : ∃ cs', Recut new size es c cs rest' cs' := by
  by_cases hstart : StartsText c cs
  · exact recut_text hnew hstart hfits hrest hfront
  · rw [StartsText, Classical.not_imp] at hstart
    obtain ⟨rfl, hmarkup⟩ := hstart
    by_cases hletter : startsWithLetter cs = true
    · exact recut_element hnew hletter hfits hrest hfront
    · cases cs with
      | nil => exact absurd ⟨rfl, by simp, by simp, by simp⟩ hmarkup
      | cons d text =>
        by_cases hbang : d = '!'
        · subst hbang
          by_cases hdashes : ['-', '-'] <+: text
          · obtain ⟨text, rfl⟩ := hdashes
            exact recut_comment hfits hrest hfront
          · exact recut_declaration (.inl rfl) (fun _ => hdashes) hfits hrest hfront
        · by_cases hmark : d = '?'
          · exact recut_declaration (.inr hmark) (fun h => absurd h hbang) hfits hrest hfront
          · have hslash : d = '/' ∧ startsWithLetter text = true := by
              simpa [hletter, hbang, hmark] using hmarkup
            obtain ⟨rfl, htag⟩ := hslash
            exact recut_endTag htag hfits hrest hfront

/-- The pieces of a source are what is cut off first and the pieces of what is left. -/
theorem piecesFrom_cons (size : Nat) (c : Char) (cs : List Char) : piecesFrom size (c :: cs) =
    (cutPiece size c cs).1 ++ piecesFrom size (cutPiece size c cs).2 := by
  rw [piecesFrom]

/-- A source with new texts in it is cut alike. -/
theorem exists_cutAlike (hnew : new.Fit) (hfits : byteSize cs ≤ size) :
    ∃ cs', Rewritten size ((piecesFrom size cs).flatMap (·.edits new)) cs cs' ∧ SameFront cs cs' ∧
      ∀ size', byteSize cs' ≤ size' →
        CutAlike new size size' cs cs' (piecesFrom size cs) (piecesFrom size' cs') := by
  fun_induction piecesFrom size cs with
  | case1 =>
    refine ⟨[], ⟨hfits, .keep _ _⟩, .refl [], fun size' _ => ?_⟩
    rw [piecesFrom]
    exact .nil
  | case2 c cs _ ih =>
    have hsuffix := cutPiece_suffix size c cs
    obtain ⟨rest', hrest, hfront, hagain⟩ := ih
      (Nat.le_trans (Text.byteSize_le_of_suffix (hsuffix.trans (List.suffix_cons c cs))) hfits)
    obtain ⟨cs', hrecut⟩ := exists_recut hnew hfits hrest hfront
    refine ⟨c :: cs', ?_, hrecut.front, fun size' hfits' => ?_⟩
    · rw [List.flatMap_append]
      exact hrecut.rewritten
    · have hsuffix' := cutPiece_suffix size' c cs'
      rw [hrecut.rest] at hsuffix'
      rw [piecesFrom_cons, hrecut.rest]
      exact hrecut.alike size' _ _ hfits' (hagain size' (Nat.le_trans
        (Text.byteSize_le_of_suffix (hsuffix'.trans (List.suffix_cons c cs'))) hfits'))

end Stencil.Markup
