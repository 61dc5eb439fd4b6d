import Stencil.Proofs.Markup.Layout

/-!
# The layout of the pieces of a source

The pieces that a source is cut into follow each other in it, and each has the text, the attributes
and the contents that stand there: `laid_pieces`. With the invariant of drafts (Proofs/Markup/Layout)
this gives **the law** (`laid_ofSource`): the tree of every source, however malformed, is laid out in
it.

The scanner is followed function by function, from the inside out. A value stands where its quote says
(`valueStart_eq`); an attribute lies between where reading it starts and where it stops
(`laid_attribute?`), and attributes follow each other in the tag (`laid_attributes`); a tag lies
between its `<` and what is left behind it (`tagged_attributes`); an element whose contents are not
markup reaches to its end tag (`laid_rawElement`). `laid_cutPiece` is one step of the scanner, and the
induction over the steps only appends pieces (`LaidPieces.append`). What holds of all that can be cut
off holds of all pieces (`forall_piecesFrom`), which other modules use for other properties.

`Draft.LaidTo.push` is the step from pieces to the tree.

**What it does not establish.** The layout does not say which pieces the scanner should cut; it says
that what it cuts is where it says.
-/

namespace Stencil.Markup

open Text (byteSize isBoundary)

variable {source : List Char}

/-- The piece lies between two offsets, and is what the source holds there. A problem is no part of
the source. -/
def Piece.Laid (source : List Char) (lo hi : Nat) : Piece → Prop
  | .text value span =>
    value ≠ [] ∧ span.Holds source value ∧ lo ≤ span.start ∧ span.stop ≤ hi
  | .comment value span => (Node.comment (String.ofList value) span).Laid source ∧
    lo ≤ span.start ∧ span.stop ≤ hi
  | .startTag name attributes span => (⟨name, attributes, span, span, none⟩ : Element).Tagged source ∧
    lo ≤ span.start ∧ span.stop ≤ hi
  | .endTag _ span => span.Cuts source ∧ lo ≤ span.start ∧ span.stop ≤ hi
  | .element node => node.Laid source ∧ lo ≤ node.span.start ∧ node.span.stop ≤ hi
  | .problem _ => lo ≤ hi

/-- The pieces follow each other between two offsets. -/
def LaidPieces (source : List Char) : (lo hi : Nat) → List Piece → Prop
  | lo, hi, [] => lo ≤ hi
  | lo, hi, p :: ps => ∃ mid, p.Laid source lo mid ∧ LaidPieces source mid hi ps

/-- Pieces behind pieces. -/
theorem LaidPieces.append {lo mid hi : Nat} {ps qs : List Piece} (hp : LaidPieces source lo mid ps)
    (hq : LaidPieces source mid hi qs) : LaidPieces source lo hi (ps ++ qs) := by
  induction ps generalizing lo with
  | nil =>
    cases qs with
    | nil => exact Nat.le_trans hp hq
    | cons q qs =>
      obtain ⟨upto, hq, hqs⟩ := hq
      refine ⟨upto, ?_, hqs⟩
      have hle : lo ≤ mid := hp
      cases q with
      | element node => exact ⟨hq.1, Nat.le_trans hle hq.2.1, hq.2.2⟩
      | text value span => exact ⟨hq.1, hq.2.1, Nat.le_trans hle hq.2.2.1, hq.2.2.2⟩
      | comment value span => exact ⟨hq.1, Nat.le_trans hle hq.2.1, hq.2.2⟩
      | startTag name attributes span => exact ⟨hq.1, Nat.le_trans hle hq.2.1, hq.2.2⟩
      | endTag name span => exact ⟨hq.1, Nat.le_trans hle hq.2.1, hq.2.2⟩
      | problem error => exact Nat.le_trans hle hq
  | cons p ps ih =>
    obtain ⟨upto, hp, hps⟩ := hp
    exact ⟨upto, hp, ih hps⟩

/-- A piece does not end before it starts. -/
theorem Piece.Laid.le {lo hi : Nat} {p : Piece} (h : p.Laid source lo hi) : lo ≤ hi := by
  cases p with
  | text value span =>
    obtain ⟨hne, hholds, hlo, hhi⟩ := h
    have hproper := (hholds.cuts hne).proper
    omega
  | comment value span =>
    obtain ⟨hnode, hlo, hhi⟩ := h
    have hproper := hnode.cuts.proper
    simp only [Node.span] at hproper
    omega
  | element node =>
    obtain ⟨hnode, hlo, hhi⟩ := h
    have hproper := hnode.cuts.proper
    omega
  | startTag name attributes span =>
    obtain ⟨htagged, hlo, hhi⟩ := h
    have hproper := htagged.cuts.proper
    simp only at hproper
    omega
  | endTag name span =>
    obtain ⟨hcuts, hlo, hhi⟩ := h
    have hproper := hcuts.proper
    omega
  | problem error => exact h

/-- Pieces do not end before they start. -/
theorem LaidPieces.le {lo hi : Nat} {ps : List Piece} (h : LaidPieces source lo hi ps) : lo ≤ hi := by
  induction ps generalizing lo with
  | nil => exact h
  | cons p ps ih =>
    obtain ⟨mid, hp, hps⟩ := h
    exact Nat.le_trans hp.le (ih hps)

/-- Problems in front of the pieces change nothing. -/
theorem LaidPieces.problems {lo hi : Nat} {ps : List Piece} (errors : List MarkupError)
    (h : LaidPieces source lo hi ps) : LaidPieces source lo hi (errors.map Piece.problem ++ ps) := by
  induction errors with
  | nil => exact h
  | cons error errors ih => exact ⟨lo, Nat.le_refl _, ih⟩

/-- A property of problems and of pieces holds of the problems in front of the pieces. -/
theorem forall_problems {Q : Piece → Prop} {errors : List MarkupError} {ps : List Piece}
    (herrors : ∀ error ∈ errors, Q (.problem error)) (hps : ∀ p ∈ ps, Q p) :
    ∀ p ∈ errors.map Piece.problem ++ ps, Q p :=
  List.forall_mem_append.2 ⟨List.forall_mem_map.2 herrors, hps⟩

/-! ## Attributes -/

/-- Where the value behind an equals sign starts: after its quote, if it has one. -/
def valueStart (cs : List Char) : List Char :=
  match (cutValue cs).2.1 with
  | some _ => cs.drop 1
  | none => cs

/-- A value stands in what is left of the tag. -/
theorem valueStart_suffix (cs : List Char) : valueStart cs <:+ cs := by
  unfold valueStart
  split
  · exact List.drop_suffix _ _
  · exact List.suffix_refl _

/-- The value as written stands where the quote says, up to what `cutValue` leaves. -/
theorem valueStart_eq (cs : List Char) :
    valueStart cs = (cutValue cs).1 ++ (cutValue cs).2.2.1 ∧
      (cutValue cs).2.2.2.getD [] <:+ (cutValue cs).2.2.1 := by
  cases cs with
  | nil => exact ⟨rfl, List.suffix_refl _⟩
  | cons q rest =>
    rw [valueStart]
    by_cases hq : Text.isQuote q = true
    · cases h : Text.cutAtChar q rest with
      | none =>
        have hcut : cutValue (q :: rest) = (rest, some q, [], none) := by simp [cutValue, hq, h]
        rw [hcut]
        exact ⟨(List.append_nil rest).symm, List.suffix_refl _⟩
      | some r =>
        have hcut : cutValue (q :: rest) = (r.1, some q, q :: r.2, some r.2) := by
          simp [cutValue, hq, h]
        rw [hcut]
        exact ⟨by simpa using Text.eq_of_cutAt h, List.suffix_cons _ _⟩
    · let inValue (c : Char) : Bool := !Text.isBlank c && c != '>'
      have hcut : cutValue (q :: rest) = ((q :: rest).takeWhile inValue, none,
          (q :: rest).dropWhile inValue, some ((q :: rest).dropWhile inValue)) := by
        rw [cutValue, if_neg hq]
      rw [hcut]
      exact ⟨List.takeWhile_append_dropWhile.symm, List.suffix_refl _⟩

/-- The span of a value, as the scanner makes it. -/
theorem valueSpan_valuedAttribute (size : Nat) (name start cs : List Char) :
    (valuedAttribute size name start cs).found.valueSpan =
      some (spanBetween size (valueStart (skipBlanks cs)) (cutValue (skipBlanks cs)).2.2.1) := rfl

/-- What `attribute?` reads is laid out between where it starts and where it stops. -/
theorem laid_attribute? {cs : List Char} {a : ReadAttribute} (hs : cs <:+ source)
    (h : attribute? (byteSize source) cs = some a) :
    a.found.Laid source ∧ a.found.span = spanBetween (byteSize source) cs a.rest := by
  have hspan : a.found.span = spanBetween (byteSize source) cs a.rest := by
    unfold attribute? at h
    split at h
    · simp at h
    · split at h <;> obtain rfl := Option.some.inj h <;> rfl
  obtain ⟨c, rest, rfl, hsuffix⟩ := attribute?_suffix h
  refine ⟨⟨hspan ▸ cuts_spanBetween hs hsuffix, ?_, ?_⟩, hspan⟩
  · intro hnone
    unfold attribute? at h
    split at h
    · simp at h
    · split at h
      · obtain rfl := Option.some.inj h
        simp [valuedAttribute] at hnone
      · obtain rfl := Option.some.inj h
        rfl
  · intro span hvalue
    unfold attribute? at h
    split at h
    · simp at h
    · next name behind _ hname =>
      split at h
      · next valueText hblank =>
        obtain rfl := Option.some.inj h
        have hcut : (cutName (c :: rest)).1 ++ (cutName (c :: rest)).2 = c :: rest :=
          List.takeWhile_append_dropWhile
        rw [hname] at hcut
        -- the value starts somewhere behind the name, so within the text that is read here
        have hvalueText : valueText <:+ c :: rest := by
          refine List.IsSuffix.trans (List.suffix_cons '=' valueText) ?_
          rw [← hblank, ← hcut]
          exact (skipBlanks_suffix behind).trans (List.suffix_append _ _)
        obtain ⟨hstart, hrest⟩ := valueStart_eq (skipBlanks valueText)
        have hsub : valueStart (skipBlanks valueText) <:+ c :: rest :=
          (valueStart_suffix _).trans ((skipBlanks_suffix _).trans hvalueText)
        rw [valueSpan_valuedAttribute] at hvalue
        obtain rfl := Option.some.inj hvalue
        rw [hspan]
        exact ⟨offsetOf_mono hsub, offsetOf_mono hrest, _,
          holds_spanBetween (hsub.trans hs) hstart, rfl⟩
      · obtain rfl := Option.some.inj h
        simp [bareAttribute] at hvalue

/-- The attributes of a start tag follow each other in it. -/
theorem laid_attributes {cs : List Char} (hs : cs <:+ source) :
    Span.InOrder (offsetOf (byteSize source) cs)
        (offsetOf (byteSize source) (attributes (byteSize source) cs).rest)
        ((attributes (byteSize source) cs).attributes.map (·.span)) ∧
      ∀ a ∈ (attributes (byteSize source) cs).attributes, a.Laid source := by
  fun_induction attributes (byteSize source) cs with
  | case1 => exact ⟨offsetOf_mono List.nil_suffix, by simp⟩
  | case2 cs rest h =>
    exact ⟨offsetOf_mono ((List.suffix_cons _ _).trans (h ▸ skipBlanks_suffix cs)), by simp⟩
  | case3 cs rest h =>
    refine ⟨offsetOf_mono ?_, by simp⟩
    exact ((List.suffix_cons _ _).trans (List.suffix_cons _ _)).trans (h ▸ skipBlanks_suffix cs)
  | case4 cs c rest _ _ h _ a ha _ ih =>
    have hfrom : c :: rest <:+ cs := h ▸ skipBlanks_suffix cs
    obtain ⟨hlaid, hspan⟩ := laid_attribute? (hfrom.trans hs) ha
    obtain ⟨_, _, heq, hsuffix⟩ := attribute?_suffix ha
    obtain ⟨rfl, rfl⟩ := List.cons.inj heq
    have hrest : a.rest <:+ c :: rest := hsuffix.trans (List.suffix_cons _ _)
    obtain ⟨horder, hall⟩ := ih ((hrest.trans hfrom).trans hs)
    simp only [ReadTag.push, List.map_cons, Span.InOrder, List.mem_cons, forall_eq_or_imp, hspan]
    exact ⟨⟨offsetOf_mono hfrom, offsetOf_mono hrest, horder⟩, hlaid, hall⟩
  | case5 cs c rest _ _ h _ ha _ ih =>
    have hfrom : rest <:+ cs := (List.suffix_cons _ _).trans (h ▸ skipBlanks_suffix cs)
    obtain ⟨horder, hall⟩ := ih (hfrom.trans hs)
    exact ⟨horder.mono (offsetOf_mono hfrom), hall⟩

/-! ## Elements -/

/-- The start tag between its `<` and what is left behind its attributes. -/
theorem tagged_attributes {c : Char} {cs rest : List Char} (name : String)
    (hs : c :: cs <:+ source) (hfrom : rest <:+ cs) :
    let tag := attributes (byteSize source) rest
    let span := spanBetween (byteSize source) (c :: cs) tag.rest
    span.Cuts source ∧
      ∀ stop endSpan, (⟨name, tag.attributes, ⟨span.start, stop⟩, span, endSpan⟩ : Element).Tagged
        source := by
  intro tag span
  obtain ⟨horder, hall⟩ := laid_attributes (hfrom.trans ((List.suffix_cons _ _).trans hs))
  have hcuts : span.Cuts source := cuts_spanBetween hs ((attributes_suffix _ _).trans hfrom)
  refine ⟨hcuts, fun stop endSpan => ⟨rfl, hcuts, ?_, hall⟩⟩
  exact horder.mono (offsetOf_mono (hfrom.trans (List.suffix_cons _ _)))

/-- Behind a tag stands a rest of the source. -/
theorem afterTag_cons_suffix (c : Char) (cs : List Char) : afterTag (c :: cs) <:+ cs := by
  unfold afterTag
  split
  · next before rest h =>
    have heq := Text.eq_of_cutAt h
    cases before with
    | nil =>
      obtain ⟨-, rfl⟩ := List.cons.inj heq
      exact List.suffix_refl _
    | cons d before =>
      obtain ⟨-, rfl⟩ := List.cons.inj heq
      exact List.suffix_append _ _
  · exact List.nil_suffix

/-- The body and what is behind it. -/
theorem rawBody_append (name : String) (cs : List Char) :
    cs = rawBody name cs ++ cs.drop (rawBody name cs).length := by
  have htake : rawBody name cs = cs.take (rawBody name cs).length := by
    simp only [rawBody]
    split
    · next before _ _ => rw [List.length_take, ← List.take_take, List.take_length]
    · rw [List.take_length]
  conv => lhs; rw [← List.take_append_drop (rawBody name cs).length cs, ← htake]

/-- Contents that are not markup end where the end tag starts, or where the source ends. -/
theorem contentsStop_raw (size : Nat) (name : String) (attributes : List Attribute) (startSpan : Span)
    (start behind : List Char) : Element.contentsStop
      { name, attributes
        span := spanBetween size start (afterTag behind)
        startSpan
        endSpan := if behind.isEmpty then none else some (spanBetween size behind (afterTag behind)) } =
      offsetOf size behind := by
  cases behind <;> rfl

/-- An element whose contents are not markup is laid out up to where its end tag stops. -/
theorem laid_rawElement {c : Char} {cs rest : List Char} {name : String} (model : ContentModel)
    (hs : c :: cs <:+ source) (hfrom : rest <:+ cs) :
    let tag := attributes (byteSize source) rest
    (rawElement (byteSize source) name tag.attributes (c :: cs) tag.rest model).Laid source ∧
      (rawElement (byteSize source) name tag.attributes (c :: cs) tag.rest model).span =
        spanBetween (byteSize source) (c :: cs) (afterRaw name tag.rest) := by
  intro tag
  obtain ⟨hcuts, htagged⟩ := tagged_attributes name hs hfrom
  have htag : tag.rest <:+ cs := (attributes_suffix _ _).trans hfrom
  have hin : tag.rest <:+ source := htag.trans ((List.suffix_cons _ _).trans hs)
  have hbody := rawBody_append name tag.rest
  have hafter : afterRaw name tag.rest = afterTag (tag.rest.drop (rawBody name tag.rest).length) :=
    rfl
  have hbodySpan := holds_spanBetween hin hbody
  refine ⟨?_, rfl⟩
  rw [rawElement, Node.Laid]
  refine ⟨cuts_spanBetween hs ((afterRaw_suffix _ _).trans htag), htagged _ _, ?_, ?_⟩
  · -- the end tag, if the source does not end before it
    intro endSpan hend
    cases hbehind : tag.rest.drop (rawBody name tag.rest).length with
    | nil => simp [hbehind] at hend
    | cons d behind =>
      rw [hbehind] at hafter hend
      obtain rfl := Option.some.inj hend
      refine ⟨hafter ▸ cuts_spanBetween ?_ (afterTag_cons_suffix d behind), rfl⟩
      exact (hbehind ▸ List.drop_suffix _ _).trans hin
  · rw [hafter, contentsStop_raw]
    show Markup.Laid source (offsetOf (byteSize source) tag.rest) _ _
    split
    · next hraw =>
      rw [Laid, Node.Laid, Laid, String.toList_ofList]
      refine ⟨Nat.le_refl _, ⟨?_, hbodySpan⟩, Nat.le_refl _⟩
      intro hnil
      simp [hnil] at hraw
    · rw [Laid]
      exact offsetOf_mono (List.drop_suffix _ _)

/-- What is reported of a start tag: what is wrong with its attributes, and that it does not end. -/
def ReadTag.reported (tag : ReadTag) (name : String) (span : Span) : List MarkupError :=
  tag.errors ++ match tag.tagEnd with
    | .unterminated => [⟨.unterminatedTag name, span⟩]
    | _ => []

/-- What is reported of a start tag: problems of its attributes, and that it has no end. -/
theorem ReadTag.mem_reported {tag : ReadTag} {name : String} {span : Span} {error : MarkupError}
    (h : error ∈ tag.reported name span) : error ∈ tag.errors ∨
      tag.tagEnd = .unterminated ∧ error = ⟨.unterminatedTag name, span⟩ := by
  rcases List.mem_append.1 h with h | h
  · exact .inl h
  · split at h
    · next hend => exact .inr ⟨hend, List.mem_singleton.1 h⟩
    · cases h

/-- What `cutElement` cuts off lies between the `<` and what it leaves. -/
theorem laid_cutElement {c : Char} {cs : List Char} (hs : c :: cs <:+ source) :
    LaidPieces source (offsetOf (byteSize source) (c :: cs))
      (offsetOf (byteSize source) (cutElement (byteSize source) (c :: cs) cs).2)
      (cutElement (byteSize source) (c :: cs) cs).1 := by
  have hfrom : cs.dropWhile Text.isNameChar <:+ cs := List.dropWhile_suffix _
  obtain ⟨hcuts, htagged⟩ :=
    tagged_attributes (String.ofList (cs.takeWhile Text.isNameChar)) hs hfrom
  simp only [cutElement]
  split
  · refine LaidPieces.problems _ ⟨_, ⟨?_, Nat.le_refl _, Nat.le_refl _⟩, Nat.le_refl _⟩
    rw [Node.Laid, Laid]
    exact ⟨hcuts, htagged _ _, by rintro _ ⟨⟩, Nat.le_refl _⟩
  · split
    · exact LaidPieces.problems _
        ⟨_, ⟨htagged _ _, Nat.le_refl _, Nat.le_refl _⟩, Nat.le_refl _⟩
    · obtain ⟨hlaid, hspan⟩ := laid_rawElement (contentModel _) hs hfrom
      exact LaidPieces.problems _
        ⟨_, ⟨hlaid, Nat.le_of_eq (congrArg Span.start hspan.symm),
          Nat.le_of_eq (congrArg Span.stop hspan)⟩,
          Nat.le_refl _⟩

/-! ## All pieces -/

/-- A comment lies between where it starts and what it leaves. -/
theorem laid_cutComment {cs : List Char} (hs : "<!--".toList ++ cs <:+ source) :
    LaidPieces source (offsetOf (byteSize source) ("<!--".toList ++ cs))
      (offsetOf (byteSize source) (cutComment (byteSize source) ("<!--".toList ++ cs) cs).2)
      (cutComment (byteSize source) ("<!--".toList ++ cs) cs).1 := by
  unfold cutComment
  split
  · next value rest h =>
    refine ⟨_, ⟨?_, Nat.le_refl _, Nat.le_refl _⟩, Nat.le_refl _⟩
    rw [Node.Laid]
    have heq := Text.eq_of_cutAt h
    have hcut : "<!--".toList ++ cs = "<!--".toList ++ value ++ "-->".toList ++ rest := by
      simpa using heq
    exact ⟨_, holds_spanBetween hs hcut, .inl (by simp)⟩
  · refine ⟨_, Nat.le_refl _, _, ⟨?_, Nat.le_refl _, Nat.le_refl _⟩, Nat.le_refl _⟩
    rw [Node.Laid]
    exact ⟨_, holds_spanBetween hs (List.append_nil _).symm, .inr (by simp)⟩

/-- What `cutPiece` cuts off lies between where it starts and what it leaves. -/
theorem laid_cutPiece {c : Char} {cs : List Char} (hs : c :: cs <:+ source) :
    LaidPieces source (offsetOf (byteSize source) (c :: cs))
      (offsetOf (byteSize source) (cutPiece (byteSize source) c cs).2)
      (cutPiece (byteSize source) c cs).1 := by
  unfold cutPiece
  split
  · exact laid_cutComment hs
  · next rest _ => exact offsetOf_mono ((afterTag_suffix rest).trans (List.suffix_append ['<', '!'] _))
  · next rest => exact offsetOf_mono ((afterTag_suffix rest).trans (List.suffix_append ['<', '?'] _))
  · split
    · have hrest := cutEndTag_suffix (byteSize source) (c :: cs) (cs.drop 1)
      exact ⟨_, ⟨cuts_spanBetween hs (hrest.trans (List.drop_suffix _ _)), Nat.le_refl _,
        Nat.le_refl _⟩, Nat.le_refl _⟩
    · split
      · exact laid_cutElement hs
      · have happend := cutText_append 0 true (c :: cs)
        have hrest := (cutText_suffix c cs).length_le
        refine ⟨_, ⟨?_, holds_spanBetween hs happend.symm, Nat.le_refl _, Nat.le_refl _⟩,
          Nat.le_refl _⟩
        intro hnil
        change (cutText 0 true (c :: cs)).1 = [] at hnil
        rw [hnil, List.nil_append] at happend
        rw [happend, List.length_cons] at hrest
        omega

/-- The pieces of a rest of the source lie behind each other, up to its end. -/
theorem laid_piecesFrom {cs : List Char} (hs : cs <:+ source) :
    LaidPieces source (offsetOf (byteSize source) cs) (byteSize source)
      (piecesFrom (byteSize source) cs) := by
  fun_induction piecesFrom (byteSize source) cs with
  | case1 => exact Nat.sub_le _ _
  | case2 c cs _ ih =>
    have hsuffix := cutPiece_suffix (byteSize source) c cs
    exact (laid_cutPiece hs).append (ih (hsuffix.trans ((List.suffix_cons _ _).trans hs)))

/-- What holds of all that can be cut off from the source holds of its pieces. -/
theorem forall_piecesFrom {Q : Piece → Prop} {cs : List Char}
    (h : ∀ c cs, c :: cs <:+ source → ∀ p ∈ (cutPiece (byteSize source) c cs).1, Q p)
    (hs : cs <:+ source) : ∀ p ∈ piecesFrom (byteSize source) cs, Q p := by
  fun_induction piecesFrom (byteSize source) cs with
  | case1 => exact List.forall_mem_nil _
  | case2 c cs _ ih =>
    have hsuffix := cutPiece_suffix (byteSize source) c cs
    exact List.forall_mem_append.2 ⟨h c cs hs, ih (hsuffix.trans ((List.suffix_cons _ _).trans hs))⟩

/-- The pieces of a source follow each other in it, from its start to its end. -/
theorem laid_pieces (source : List Char) : LaidPieces source 0 (byteSize source) (pieces source) := by
  have h := laid_piecesFrom (List.suffix_refl source)
  rwa [show offsetOf (byteSize source) source = 0 from Nat.sub_self _] at h

/-! ## The tree -/

/-- Pushing a piece that follows all that the draft has keeps the draft laid out. -/
theorem Draft.LaidTo.push {d : Draft} {lo hi : Nat} {p : Piece} (h : d.LaidTo source lo)
    (hp : p.Laid source lo hi) : (d.push p).LaidTo source hi := by
  cases p with
  | text value span =>
    obtain ⟨hne, hspan, hlo, hhi⟩ := hp
    have hadd : (d.addText (String.ofList value) span).LaidTo source span.stop :=
      h.addText (by simpa using hne) (by simpa using hspan) hlo
    exact hadd.mono hhi
  | comment value span =>
    obtain ⟨hnode, hlo, hhi⟩ := hp
    exact (h.add hnode hlo).mono hhi
  | element node =>
    obtain ⟨hnode, hlo, hhi⟩ := hp
    exact (h.add hnode hlo).mono hhi
  | problem error => exact LaidTo.report (h.mono hp)
  | startTag name attributes span =>
    obtain ⟨htagged, hlo, hhi⟩ := hp
    refine ⟨htagged, rfl, ?_, h.mono hlo⟩
    simpa only [List.reverse_nil, Markup.Laid] using hhi
  | endTag name span =>
    obtain ⟨hcuts, hlo, hhi⟩ := hp
    simp only [Draft.push]
    split
    · exact ((h.closeInner _ hlo hcuts.start).closeBy (Nat.le_refl _) hcuts).mono hhi
    · have hproper := hcuts.proper
      exact LaidTo.report (h.mono (by omega))

/-- A draft stays laid out when pieces that follow it are pushed. -/
theorem Draft.LaidTo.pushAll {d : Draft} {lo hi : Nat} {ps : List Piece} (h : d.LaidTo source lo)
    (hps : LaidPieces source lo hi ps) : (ps.foldl Draft.push d).LaidTo source hi := by
  induction ps generalizing d lo with
  | nil => exact h.mono hps
  | cons p ps ih =>
    obtain ⟨mid, hp, hps⟩ := hps
    exact ih (h.push hp) hps

/-- What is outside of all elements is laid out before the open elements. -/
theorem Draft.LaidTo.roots {d : Draft} {hi : Nat} (h : d.LaidTo source hi) :
    Markup.Laid source 0 hi d.roots.reverse := by
  unfold LaidTo at h
  generalize d.opened = opened at h
  induction opened generalizing hi with
  | nil => exact h
  | cons e es ih =>
    obtain ⟨htag, -, hcontents, hes⟩ := h
    have := htag.cuts.proper
    have := hcontents.le
    exact (ih hes).mono (by omega)

/-- The tree of every source, however malformed, is laid out in it. -/
theorem laid_ofSource (source : List Char) :
    Laid source 0 (byteSize source) (Tree.ofSource source).nodes := by
  have hend : isBoundary (byteSize source) source = true :=
    Text.isBoundary_iff.2 ⟨source, [], (List.append_nil _).symm, rfl⟩
  have hstart : ({} : Draft).LaidTo source 0 := by
    show Laid source 0 0 []
    unfold Laid
    exact Nat.le_refl _
  have hall := hstart.pushAll (laid_pieces source)
  exact (hall.closeInner _ (Nat.le_refl _) hend).roots

end Stencil.Markup
