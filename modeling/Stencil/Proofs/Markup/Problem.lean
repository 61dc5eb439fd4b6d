import Stencil.Proofs.Markup.Harvest
import Stencil.Proofs.Markup.Pieces
import Stencil.Proofs.Markup.TextSpan

/-!
# Problems lie outside of the texts

What is wrong with the markup is wrong with a tag or a comment. The insides of markers are looked at
in the texts of a tree, and what is found there is reported in them; so that the two kinds of report
can be told apart, no text of a tree may reach into the span of a problem.

**The law** (`apart_errors`): every problem of the tree of a source is apart from every text of the
tree. A text of the tree may be put together of several texts that were cut from the source; a problem
cannot be between them, since they touch.

Problems come from pieces (`exists_error?`), and so do texts (`forall_texts_ofSource`). A problem of
an attribute reaches to the end of the source (`attributes_errors`), as does that of a tag without an
end, so the piece with a problem is the last one (`errorsWithin_cutElement`); other problems have a
piece of their own. `apart_piecesFrom` puts these together along the pieces.

**What it does not establish.** Problems may lie in each other, and nothing is said of what they
report.
-/

namespace Stencil.Markup

open Text (byteSize)

/-! ## The texts of a tree -/

/-- The spans of the texts that come with a piece. -/
def Piece.textSpans : Piece → List Span
  | .text _ span => [span]
  | .element node => node.texts.map (·.2)
  | _ => []

section

variable {P : Span → Prop}

/-- The texts that come with a piece have the property if their spans do. -/
theorem Piece.each_texts {p : Piece} (hp : ∀ s ∈ p.textSpans, P s) :
    p.Each fun node => ∀ t ∈ node.texts, P t.2 := by
  cases p with
  | text value span => exact List.forall_mem_singleton.2 (hp span (List.mem_singleton_self _))
  | comment value span => exact nofun
  | element node => exact fun t ht => hp t.2 (List.mem_map_of_mem ht)
  | startTag name attributes startSpan =>
    intro span endSpan children hchildren t ht
    obtain ⟨node, hnode, ht⟩ := mem_textsOf.1 ht
    exact hchildren node hnode t ht
  | endTag name span => trivial
  | problem error => trivial

/-- What holds of the spans of the texts in all pieces, and of two that touch put together, holds of
the spans of all texts of the tree. -/
theorem forall_texts_ofSource {source : List Char}
    (hjoin : ∀ a b, P a → P b → a.stop = b.start → P ⟨a.start, b.stop⟩)
    (hpieces : ∀ p ∈ pieces source, ∀ s ∈ p.textSpans, P s) :
    ∀ t ∈ textsOf (Tree.ofSource source).nodes, P t.2 := by
  have hjoins : Joins fun node => ∀ t ∈ node.texts, P t.2 := fun _ _ s t hs ht htouch =>
    List.forall_mem_singleton.2 (hjoin s t (hs _ (List.mem_singleton_self _))
      (ht _ (List.mem_singleton_self _)) htouch)
  intro t ht
  obtain ⟨node, hnode, ht⟩ := mem_textsOf.1 ht
  exact forall_nodes_ofSource hjoins (fun p hp => Piece.each_texts (hpieces p hp)) node hnode t ht

end

/-! ## The problems of a tree -/

/-- The problem that the piece may be reported as. -/
def Piece.error? : Piece → Option MarkupError
  | .problem error => some error
  | .endTag name span => some ⟨.unexpectedEndTag name, span⟩
  | _ => none

/-- A piece that is pushed reports nothing but its own problem. -/
theorem errors_push {d : Draft} {p : Piece} {error : MarkupError} (h : error ∈ (d.push p).errors) :
    error ∈ d.errors ∨ p.error? = some error := by
  cases p with
  | text value span => exact .inl ((Draft.errors_mapContents _).subst h)
  | comment value span => exact .inl ((Draft.errors_mapContents _).subst h)
  | element node => exact .inl ((Draft.errors_mapContents _).subst h)
  | startTag name attributes span => exact .inl h
  | problem found =>
    rcases List.mem_cons.1 h with rfl | h
    · exact .inr rfl
    · exact .inl h
  | endTag name span =>
    simp only [Draft.push] at h
    split at h
    · rw [Draft.errors_closeBy, Draft.errors_closeInner] at h
      exact .inl h
    · rcases List.mem_cons.1 h with rfl | h
      · exact .inr rfl
      · exact .inl h

/-- The problems of a tree come from its pieces. -/
theorem exists_error? {source : List Char} {error : MarkupError}
    (h : error ∈ (Tree.ofSource source).errors) : ∃ p ∈ pieces source, p.error? = some error := by
  have hpushed (ps : List Piece) (d : Draft) (h : error ∈ (ps.foldl Draft.push d).errors) :
      error ∈ d.errors ∨ ∃ p ∈ ps, p.error? = some error := by
    induction ps generalizing d with
    | nil => exact .inl h
    | cons p ps ih =>
      rcases ih _ h with h | ⟨q, hq, herror⟩
      · rcases errors_push h with h | h
        · exact .inl h
        · exact .inr ⟨p, List.mem_cons_self, h⟩
      · exact .inr ⟨q, List.mem_cons_of_mem p hq, herror⟩
  have herrors : error ∈ ((pieces source).foldl Draft.push {}).errors := by
    rw [Tree.ofSource, Draft.finish, List.mem_reverse, Draft.errors_closeInner] at h
    exact h
  rcases hpushed _ _ herrors with h | h
  · cases h
  · exact h

/-! ## Problems of pieces -/

section

variable {source : List Char}

/-- A value without an end takes all that is left of the source. -/
theorem attribute?_errors {size : Nat} {cs : List Char} {a : ReadAttribute}
    (h : attribute? size cs = some a) :
    ∀ error ∈ a.errors, a.rest = [] ∧ error.span = spanBetween size cs [] := by
  unfold attribute? at h
  split at h
  · cases h
  · split at h
    · next name behind hne heq rest hrest =>
      obtain rfl := Option.some.inj h
      intro error herror
      simp only [valuedAttribute] at herror ⊢
      split at herror
      · cases herror
      · next hnone =>
        rw [List.mem_singleton.1 herror, hnone]
        exact ⟨rfl, rfl⟩
    · obtain rfl := Option.some.inj h
      exact List.forall_mem_nil _

/-- At the end of the source a tag has no end. -/
theorem attributes_nil (size : Nat) : attributes size [] = ⟨[], [], .unterminated, []⟩ := by
  rw [attributes]
  split
  · rfl
  all_goals next h => cases h

/-- A problem with an attribute reaches from the attribute to the end of the source. -/
theorem attributes_errors (size : Nat) (cs : List Char) :
    ∀ error ∈ (attributes size cs).errors, (attributes size cs).rest = [] ∧
      ∃ start, start ≠ [] ∧ start <:+ cs ∧ error.span = spanBetween size start [] := by
  fun_induction attributes size cs with
  | case1 | case2 | case3 => exact List.forall_mem_nil _
  | case4 cs c rest _ _ h _ a ha _ ih =>
    have hfrom : c :: rest <:+ cs := h ▸ skipBlanks_suffix cs
    intro error herror
    rcases List.mem_append.1 herror with herror | herror
    · obtain ⟨hrest, hspan⟩ := attribute?_errors ha error herror
      refine ⟨?_, c :: rest, List.cons_ne_nil _ _, hfrom, hspan⟩
      rw [hrest, attributes_nil]
      rfl
    · obtain ⟨hrest, start, hne, hstart, hspan⟩ := ih error herror
      obtain ⟨_, _, heq, hsuffix⟩ := attribute?_suffix ha
      obtain ⟨rfl, rfl⟩ := List.cons.inj heq
      exact ⟨hrest, start, hne, (hstart.trans (hsuffix.trans (List.suffix_cons _ _))).trans hfrom,
        hspan⟩
  | case5 cs c rest _ _ h _ ha _ ih =>
    have hfrom : rest <:+ cs := (List.suffix_cons _ _).trans (h ▸ skipBlanks_suffix cs)
    intro error herror
    obtain ⟨hrest, start, hne, hstart, hspan⟩ := ih error herror
    exact ⟨hrest, start, hne, hstart.trans hfrom, hspan⟩

/-- A tag without an end leaves nothing of the source. -/
theorem attributes_unterminated (size : Nat) (cs : List Char)
    (h : (attributes size cs).tagEnd = .unterminated) : (attributes size cs).rest = [] := by
  fun_induction attributes size cs with
  | case1 => rfl
  | case2 | case3 => cases h
  | case4 _ _ _ _ _ _ _ _ _ _ ih => exact ih h
  | case5 _ _ _ _ _ _ _ _ _ ih => exact ih h

/-- What a piece reports lies between the offsets, and no text comes with the pieces. -/
def ErrorsWithin (lo hi : Nat) (ps : List Piece) : Prop :=
  ∀ p ∈ ps, ∀ error, p.error? = some error → lo ≤ error.span.start ∧
    error.span.start < error.span.stop ∧ error.span.stop ≤ hi ∧ ∀ q ∈ ps, q.textSpans = []

/-- Problems that reach to the end of the source, with the last piece. -/
theorem errorsWithin_problems {lo : Nat} {rest : List Char} {errors : List MarkupError}
    {last : Piece} (hlast : last.error? = none)
    (herrors : ∀ error ∈ errors, rest = [] ∧ last.textSpans = [] ∧ lo ≤ error.span.start ∧
      error.span.start < error.span.stop ∧ error.span.stop ≤ byteSize source) :
    ErrorsWithin lo (offsetOf (byteSize source) rest) (errors.map .problem ++ [last]) := by
  intro p hp error herror
  rcases List.mem_append.1 hp with hp | hp
  · obtain ⟨found, hfound, rfl⟩ := List.mem_map.1 hp
    obtain rfl := Option.some.inj herror
    obtain ⟨rfl, htexts, hlo, hproper, hstop⟩ := herrors found hfound
    refine ⟨hlo, hproper, hstop, fun q hq => ?_⟩
    rcases List.mem_append.1 hq with hq | hq
    · obtain ⟨other, -, rfl⟩ := List.mem_map.1 hq
      rfl
    · rw [List.mem_singleton.1 hq, htexts]
  · rw [List.mem_singleton.1 hp, hlast] at herror
    cases herror

/-- Nothing is left for a body at the end of the source. -/
theorem rawBody_nil (name : String) : rawBody name [] = [] :=
  (List.append_eq_nil_iff.1 (rawBody_append name []).symm).1

/-- A start tag with a problem is the last of the source. -/
theorem errorsWithin_cutElement {c : Char} {cs : List Char} (hs : c :: cs <:+ source) :
    ErrorsWithin (offsetOf (byteSize source) (c :: cs))
      (offsetOf (byteSize source) (cutElement (byteSize source) (c :: cs) cs).2)
      (cutElement (byteSize source) (c :: cs) cs).1 := by
  have hfrom : cs.dropWhile Text.isNameChar <:+ cs := List.dropWhile_suffix _
  have hattributes := attributes_errors (byteSize source) (cs.dropWhile Text.isNameChar)
  have hunterminated := attributes_unterminated (byteSize source) (cs.dropWhile Text.isNameChar)
  simp only [cutElement]
  generalize attributes (byteSize source) (cs.dropWhile Text.isNameChar) = tag
    at hattributes hunterminated ⊢
  -- A tag that is not closed goes on to the end of the source, and so do its problems.
  have htoEnd {start : List Char} (hne : start ≠ []) (hstart : start <:+ c :: cs) :
      offsetOf (byteSize source) (c :: cs) ≤ (spanBetween (byteSize source) start []).start ∧
      (spanBetween (byteSize source) start []).start <
        (spanBetween (byteSize source) start []).stop ∧
      (spanBetween (byteSize source) start []).stop ≤ byteSize source := by
    obtain ⟨d, start, rfl⟩ := List.exists_cons_of_ne_nil hne
    exact ⟨offsetOf_mono hstart, (cuts_spanBetween (hstart.trans hs) List.nil_suffix).proper,
      Nat.sub_le _ _⟩
  have herrors : ∀ error ∈ tag.reported (String.ofList (cs.takeWhile Text.isNameChar))
      (spanBetween (byteSize source) (c :: cs) tag.rest), tag.rest = [] ∧
        offsetOf (byteSize source) (c :: cs) ≤ error.span.start ∧
        error.span.start < error.span.stop ∧ error.span.stop ≤ byteSize source := by
    intro error herror
    rcases ReadTag.mem_reported herror with herror | ⟨hend, rfl⟩
    · obtain ⟨hrest, start, hne, hstart, hspan⟩ := hattributes error herror
      rw [hspan]
      exact ⟨hrest, htoEnd hne ((hstart.trans hfrom).trans (List.suffix_cons _ _))⟩
    · rw [hunterminated hend]
      exact ⟨rfl, htoEnd (List.cons_ne_nil _ _) (List.suffix_refl _)⟩
  split
  · exact errorsWithin_problems rfl fun error herror => (herrors error herror).imp_right (⟨rfl, ·⟩)
  · split
    · exact errorsWithin_problems rfl fun error herror => (herrors error herror).imp_right (⟨rfl, ·⟩)
    · refine errorsWithin_problems rfl fun error herror => ?_
      obtain ⟨hrest, hspan⟩ := herrors error herror
      rw [hrest]
      refine ⟨rfl, ?_, hspan⟩
      simp [Piece.textSpans, rawElement, rawBody_nil, Node.texts, textsOf]

/-- The problems of what is cut off lie in it, or reach to the end of the source. -/
theorem errorsWithin_cutPiece {c : Char} {cs : List Char} (hs : c :: cs <:+ source) :
    ErrorsWithin (offsetOf (byteSize source) (c :: cs))
      (offsetOf (byteSize source) (cutPiece (byteSize source) c cs).2)
      (cutPiece (byteSize source) c cs).1 := by
  unfold cutPiece
  split
  · unfold cutComment
    split
    · exact List.forall_mem_singleton.2 nofun
    · have hcuts := cuts_spanBetween hs List.nil_suffix
      exact errorsWithin_problems rfl
        (List.forall_mem_singleton.2 ⟨rfl, rfl, Nat.le_refl _, hcuts.proper, Nat.sub_le _ _⟩)
  · exact nofun
  · exact nofun
  · split
    · have hrest := cutEndTag_suffix (byteSize source) (c :: cs) (cs.drop 1)
      have hcuts := cuts_spanBetween hs (hrest.trans (List.drop_suffix _ _))
      refine List.forall_mem_singleton.2 fun error herror => ?_
      obtain rfl := Option.some.inj herror
      exact ⟨Nat.le_refl _, hcuts.proper, Nat.le_refl _, List.forall_mem_singleton.2 rfl⟩
    · split
      · exact errorsWithin_cutElement hs
      · exact List.forall_mem_singleton.2 nofun

/-- The texts of pieces lie where the pieces do. -/
theorem LaidPieces.textSpans {lo hi : Nat} {ps : List Piece} (h : LaidPieces source lo hi ps) :
    ∀ p ∈ ps, ∀ s ∈ p.textSpans, lo ≤ s.start ∧ s.stop ≤ hi := by
  induction ps generalizing lo with
  | nil => exact nofun
  | cons p ps ih =>
    obtain ⟨mid, hp, hps⟩ := h
    have hle := hps.le
    have hrest := ih hps
    refine List.forall_mem_cons.2 ⟨fun s hs => ?_, fun q hq s hs => ?_⟩
    · cases p with
      | text value span =>
        obtain rfl := List.mem_singleton.1 hs
        exact ⟨hp.2.2.1, Nat.le_trans hp.2.2.2 hle⟩
      | element node =>
        obtain ⟨t, ht, rfl⟩ := List.mem_map.1 hs
        have hwithin := hp.1.texts t ht
        exact ⟨Nat.le_trans hp.2.1 hwithin.lo_le,
          Nat.le_trans (Nat.le_trans hwithin.le_hi hp.2.2) hle⟩
      | _ => cases hs
    · obtain ⟨hlo, hhi⟩ := hrest q hq s hs
      exact ⟨Nat.le_trans hp.le hlo, hhi⟩

/-- What a piece reports is apart from the texts of all pieces. -/
theorem apart_piecesFrom {cs : List Char} (hs : cs <:+ source) :
    ∀ p ∈ piecesFrom (byteSize source) cs, ∀ error, p.error? = some error →
      offsetOf (byteSize source) cs ≤ error.span.start ∧ error.span.start < error.span.stop ∧
      ∀ q ∈ piecesFrom (byteSize source) cs, ∀ s ∈ q.textSpans, s.Apart error.span := by
  fun_induction piecesFrom (byteSize source) cs with
  | case1 => exact List.forall_mem_nil _
  | case2 c cs _ ih =>
    have hsuffix := cutPiece_suffix (byteSize source) c cs
    have hrest := hsuffix.trans ((List.suffix_cons c cs).trans hs)
    have herrors := errorsWithin_cutPiece hs
    have htexts := (laid_cutPiece hs).textSpans
    have hbehind := (laid_piecesFrom hrest).textSpans
    intro p hp error herror
    rcases List.mem_append.1 hp with hp | hp
    · obtain ⟨hlo, hproper, hhi, hnone⟩ := herrors p hp error herror
      refine ⟨hlo, hproper, fun q hq s hsq => ?_⟩
      rcases List.mem_append.1 hq with hq | hq
      · rw [hnone q hq] at hsq
        cases hsq
      · exact .inr (Nat.le_trans hhi (hbehind q hq s hsq).1)
    · obtain ⟨hlo, hproper, hapart⟩ := ih hrest p hp error herror
      refine ⟨Nat.le_trans (offsetOf_mono (hsuffix.trans (List.suffix_cons c cs))) hlo, hproper,
        fun q hq s hsq => ?_⟩
      rcases List.mem_append.1 hq with hq | hq
      · exact .inl (Nat.le_trans (htexts q hq s hsq).2 hlo)
      · exact hapart q hq s hsq

/-- No text of a tree reaches into the span of a problem, and none of them goes over it. -/
theorem apart_errors (source : List Char) : ∀ error ∈ (Tree.ofSource source).errors,
    ∀ t ∈ textsOf (Tree.ofSource source).nodes, t.2.Apart error.span := by
  intro error herror
  obtain ⟨p, hp, hreported⟩ := exists_error? herror
  obtain ⟨-, hproper, hapart⟩ := apart_piecesFrom (List.suffix_refl source) p hp error hreported
  refine forall_texts_ofSource (P := (·.Apart error.span)) ?_ hapart
  intro a b ha hb htouch
  unfold Span.Apart at ha hb ⊢
  dsimp only
  omega

end

end Stencil.Markup
