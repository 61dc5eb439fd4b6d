import Stencil.Markup.Piece
import Stencil.Proofs.Markup.Marker
import Stencil.Proofs.Output.Rewriting

/-!
# Texts with new insides in their markers

`refill` puts new insides into markers of a text, and leaves all else as it is. `refill_rewrites` says
that this is the text with the edits of its markers applied.

**The law** (`TextCut.refill`): a text that is cut off from a source is cut off at the same place when
it is refilled, whatever new front it has behind it. The scanner jumps over a marker as a whole, and
nothing else of it reaches into one. What it jumps over may be wider than a marker, since a marker
does not reach over a line break; so the argument is about every text that a pair of closing braces
follows, of which the inside of a marker may be the end (`exists_refill_inside`).

`TextCut` lists the texts that the scanner cuts off, one constructor for each of its steps, with what
stands behind them; `textCut_cutText` and `TextCut.cutText_eq` say that it does. What is behind a text
counts only by its first characters and by whether it closes braces (`SameFront`), and refilling keeps
both (`SameFront.refill`).

**What it does not establish.** New insides must be insides (`Fills`); a closing pair in one of them
would end the marker earlier.
-/

namespace Stencil.Markup

open Text (byteSize)

variable (fill : Span → Option (List Char))

/-- The text, which starts at `offset`, with the new insides that `fill` has for the spans of the old
ones. The first `skip` characters belong to a marker that has been taken. -/
def refillFrom : (offset skip : Nat) → List Char → List Char
  | _, _, [] => []
  | offset, skip + 1, c :: cs => refillFrom (offset + c.utf8Size) skip cs
  | offset, 0, c :: cs =>
    match markerInside? (c :: cs) with
    | some inside =>
      braced ((fill (Marker.span ⟨offset + 2, inside⟩ 0)).getD inside) ++
        refillFrom (offset + c.utf8Size) (inside.length + 3) cs
    | none => c :: refillFrom (offset + c.utf8Size) 0 cs

/-- The text, which starts at `offset`, with new insides in its markers. -/
def refill (offset : Nat) (cs : List Char) : List Char := refillFrom fill offset 0 cs

/-- What the new insides change in a text that starts at `offset`. -/
def fillEdits (offset : Nat) (cs : List Char) : List Edit :=
  (markersFrom offset 0 cs).filterMap fun m => (fill (m.span 0)).map (Edit.mk (m.span 0))

/-- Each new inside fits between its braces. -/
def Fills : Prop := ∀ span inside, fill span = some inside → IsInside inside

section

variable {fill : Span → Option (List Char)} {offset : Nat} {c : Char}
  {cs before inside rest : List Char}

/-! ## One marker after the other -/

/-- A character that starts no marker stays. -/
theorem refill_char (h : markerInside? (c :: cs) = none) :
    refill fill offset (c :: cs) = c :: refill fill (offset + c.utf8Size) cs := by
  rw [refill, refillFrom, h]
  rfl

/-- A character that starts no marker is not edited. -/
theorem fillEdits_char (h : markerInside? (c :: cs) = none) :
    fillEdits fill offset (c :: cs) = fillEdits fill (offset + c.utf8Size) cs := by
  rw [fillEdits, markersFrom_char h]
  rfl

/-- A marker is edited if it gets a new inside. -/
theorem fillEdits_braced (h : IsInside inside) (hbreak : '\n' ∉ inside) :
    fillEdits fill offset (braced inside ++ rest) =
      ((fill (Marker.span ⟨offset + 2, inside⟩ 0)).map
          (Edit.mk (Marker.span ⟨offset + 2, inside⟩ 0))).toList ++
        fillEdits fill (offset + byteSize (braced inside)) rest := by
  rw [fillEdits, markersFrom_braced h hbreak, List.filterMap_cons]
  cases fill (Marker.span ⟨offset + 2, inside⟩ 0) <;> rfl

/-- The inside that a marker gets. -/
def newInside (fill : Span → Option (List Char)) (offset : Nat) (inside : List Char) : List Char :=
  (fill (Marker.span ⟨offset + 2, inside⟩ 0)).getD inside

/-- A marker gets its new inside, or keeps the old one. -/
theorem refill_braced (h : IsInside inside) (hbreak : '\n' ∉ inside) :
    refill fill offset (braced inside ++ rest) = braced (newInside fill offset inside) ++
      refill fill (offset + byteSize (braced inside)) rest := by
  have hmarker := markerInside?_eq_some.2 ⟨⟨rest, rfl⟩, h, hbreak⟩
  rw [braced_append] at hmarker ⊢
  rw [refill, refillFrom, hmarker, refill]
  dsimp only
  rw [walk_braced (refillFrom fill) fun _ _ _ _ => rfl]
  rfl

/-- What stands in a marker afterwards is an inside. -/
theorem Fills.newInside (h : Fills fill) (hinside : IsInside inside) :
    IsInside (newInside fill offset inside) := by
  unfold Markup.newInside
  cases hfill : fill (Marker.span ⟨offset + 2, inside⟩ 0) with
  | none => exact hinside
  | some new => exact h _ _ hfill

/-- Refilling a text rewrites it by the edits of its markers. -/
theorem refill_rewrites (offset : Nat) (cs : List Char) :
    Edit.Rewrites offset cs (fillEdits fill offset cs) (refill fill offset cs) := by
  induction offset, cs using marker_induction with
  | nil offset => exact .keep _ _
  | char offset c cs hm ih =>
    rw [fillEdits_char hm, refill_char hm]
    have hsize : offset + c.utf8Size = offset + byteSize [c] := by simp
    rw [hsize] at ih ⊢
    exact ih.copy
  | marker offset inside rest hinside hbreak ih =>
    rw [fillEdits_braced hinside hbreak, refill_braced hinside hbreak, newInside]
    cases hfill : fill (Marker.span ⟨offset + 2, inside⟩ 0) with
    | none => exact ih.copy
    | some new =>
      let e : Edit := ⟨Marker.span ⟨offset + 2, inside⟩ 0, new⟩
      have hspan : e.span = ⟨offset + byteSize ['\x7b', '\x7b'],
          offset + byteSize ['\x7b', '\x7b'] + byteSize inside⟩ := by
        simp only [e, Marker.span, Nat.zero_add]
        rfl
      have hsize : offset + byteSize (braced inside) = e.span.stop + byteSize ['\x7d', '\x7d'] := by
        rw [byteSize_braced, show byteSize ['\x7d', '\x7d'] = 2 from rfl]
        simp only [e, Marker.span]
        omega
      rw [hsize] at ih ⊢
      simpa [braced] using Edit.Rewrites.replace hspan ih.copy

/-! ## Texts that are cut off -/

/-- Nothing is jumped over if no braces are opened and closed. -/
theorem markerLength?_eq_none :
    markerLength? cs = none ↔ ∀ rest, cs = '\x7b' :: '\x7b' :: rest → ¬ ['\x7d', '\x7d'] <:+: rest := by
  unfold markerLength?
  split
  · next rest =>
    rw [Option.map_eq_none_iff, Text.cutAt_eq_none (List.cons_ne_nil _ _)]
    simp
  · next h => simpa using fun rest heq => absurd heq (h rest)

/-- A text between braces is jumped over with its braces. -/
theorem markerLength?_braced (h : IsInside inside) :
    markerLength? (braced inside ++ rest) = some (inside.length + 4) := by
  rw [braced_append, markerLength?, h.cutAt]
  rfl

/-- Where a marker is jumped over, its braces stand. -/
theorem exists_braced_of_markerLength? {length : Nat} (h : markerLength? cs = some length) :
    ∃ inside rest, cs = braced inside ++ rest ∧ IsInside inside := by
  unfold markerLength? at h
  split at h
  · obtain ⟨⟨inside, rest⟩, hcut, -⟩ := Option.map_eq_some_iff.1 h
    obtain ⟨rfl, hinside⟩ := cutAt_braces.1 hcut
    exact ⟨inside, rest, (braced_append _ _).symm, hinside⟩
  · cases h

/-- What is jumped over belongs to the text. -/
theorem cutText_skip : cutText before.length false (before ++ rest) =
    (before ++ (cutText 0 false rest).1, (cutText 0 false rest).2) := by
  induction before with
  | nil => simp
  | cons c before ih => rw [List.cons_append, List.length_cons, cutText, ih]; rfl

/-- A text between braces belongs to the text. -/
theorem cutText_braced (first : Bool) (h : IsInside inside) :
    cutText 0 first (braced inside ++ rest) =
      (braced inside ++ (cutText 0 false rest).1, (cutText 0 false rest).2) := by
  have hmarker : markerLength? (braced inside ++ rest) = _ := markerLength?_braced h
  let behind := '\x7b' :: (inside ++ ['\x7d', '\x7d'])
  have hlength : behind.length = inside.length + 4 - 1 := by simp [behind]
  have hskip : cutText behind.length false (behind ++ rest) = _ := cutText_skip
  rw [braced_append] at hmarker ⊢
  rw [cutText, hmarker]
  dsimp only
  rw [← hlength]
  simp only [behind, List.cons_append, List.append_assoc] at hskip ⊢
  rw [hskip]
  simp [braced]

/-- How a text is cut off from what follows it: character by character, up to where markup may start,
but a marker is taken as a whole. The very first character is taken in any case. -/
inductive TextCut : (first : Bool) → (value rest : List Char) → Prop
  | last (first : Bool) : TextCut first [] []
  | stop {rest : List Char} : mayStartMarkup rest = true → TextCut false [] rest
  | marker {first : Bool} {inside value rest : List Char} :
    IsInside inside → TextCut false value rest → TextCut first (braced inside ++ value) rest
  | char {first : Bool} {c : Char} {value rest : List Char} :
    markerLength? (c :: (value ++ rest)) = none →
    first = true ∨ mayStartMarkup (c :: (value ++ rest)) = false →
    TextCut false value rest → TextCut first (c :: value) rest

/-- `cutText` cuts off a text so. -/
theorem textCut_cutText (first : Bool) (cs : List Char) :
    TextCut first (cutText 0 first cs).1 (cutText 0 first cs).2 := by
  -- By induction on the length, since a marker takes more than one character at once.
  induction hn : cs.length using Nat.strong_induction_on generalizing first cs with
  | _ n ih =>
    cases cs with
    | nil =>
      rw [cutText]
      exact .last first
    | cons c cs =>
      cases hm : markerLength? (c :: cs) with
      | some length =>
        obtain ⟨inside, rest, heq, hinside⟩ := exists_braced_of_markerLength? hm
        rw [heq, cutText_braced first hinside]
        refine .marker hinside (ih _ ?_ _ _ rfl)
        rw [← hn, heq, braced_append]
        simp only [List.length_cons, List.length_append]
        omega
      | none =>
        have hcut := ih _ (by simp [← hn]) false cs rfl
        have happend := cutText_append 0 false cs
        rw [cutText, hm]
        dsimp only
        split
        · next hstop =>
          obtain ⟨hfirst, hmarkup⟩ := Bool.and_eq_true_iff.1 hstop
          obtain rfl : first = false := by simpa using hfirst
          exact .stop hmarkup
        · next hgo =>
          refine .char (by rwa [happend]) ?_ hcut
          rw [happend]
          cases first with
          | true => exact .inl rfl
          | false => exact .inr (by simpa using hgo)

/-- A text that is cut off so is what `cutText` cuts off. -/
theorem TextCut.cutText_eq {first : Bool} {value rest : List Char} (h : TextCut first value rest) :
    cutText 0 first (value ++ rest) = (value, rest) := by
  induction h with
  | last first => rw [List.append_nil, cutText]
  | @stop rest hmarkup =>
    cases rest with
    | nil => cases hmarkup
    | cons c rest =>
      have hmarker : markerLength? (c :: rest) = none := by
        refine markerLength?_eq_none.2 fun behind heq => ?_
        obtain ⟨rfl, rfl⟩ := List.cons.inj heq
        cases hmarkup
      rw [List.nil_append, cutText, hmarker]
      simp [hmarkup]
  | marker hinside _ ih => rw [List.append_assoc, cutText_braced _ hinside, ih]
  | @char first c value rest hmarker hgo _ ih =>
    rw [List.cons_append, cutText, hmarker]
    dsimp only
    rw [ih, if_neg]
    rcases hgo with rfl | hmarkup
    · simp
    · simp [hmarkup]

/-! ## Refilling what is cut off -/

/-- A text that closing braces follow: they are still the first ones when it is refilled, and what is
behind them is refilled on its own. -/
theorem exists_refill_inside (hfill : Fills fill) (h : IsInside inside) (offset : Nat) :
    ∃ inside' es, IsInside inside' ∧ inside'.take 2 = inside.take 2 ∧ ∀ rest,
      refill fill offset (inside ++ ['\x7d', '\x7d'] ++ rest) = inside' ++ ['\x7d', '\x7d'] ++
        refill fill (offset + byteSize (inside ++ ['\x7d', '\x7d'])) rest ∧
      fillEdits fill offset (inside ++ ['\x7d', '\x7d'] ++ rest) =
        es ++ fillEdits fill (offset + byteSize (inside ++ ['\x7d', '\x7d'])) rest := by
  induction inside generalizing offset with
  | nil =>
    refine ⟨[], [], h, rfl, fun rest => ?_⟩
    have hchar (cs : List Char) : markerInside? ('\x7d' :: cs) = none := by simp [markerInside?]
    simp only [List.nil_append, List.cons_append, refill_char (hchar _), fillEdits_char (hchar _),
      Text.byteSize_cons, Text.byteSize_nil, Nat.add_zero, Nat.add_assoc, and_self]
  | cons c inside ih =>
    by_cases hmarker : ∃ inner, c :: inside = '\x7b' :: '\x7b' :: inner ∧ '\n' ∉ inner
    · obtain ⟨inner, heq, hbreak⟩ := hmarker
      rw [heq] at h ⊢
      have hinner : IsInside inner := (isInside_cons.1 (isInside_cons.1 h).1).1
      have hnew : IsInside (newInside fill offset inner) := hfill.newInside hinner
      refine ⟨'\x7b' :: '\x7b' :: newInside fill offset inner,
        ((fill (Marker.span ⟨offset + 2, inner⟩ 0)).map
          (Edit.mk (Marker.span ⟨offset + 2, inner⟩ 0))).toList, ?_, rfl, fun rest => ?_⟩
      · exact isInside_cons.2 ⟨isInside_cons.2 ⟨hnew, by simp⟩, by simp⟩
      · exact ⟨refill_braced hinner hbreak, fillEdits_braced hinner hbreak⟩
    · obtain ⟨hinside, hc⟩ := isInside_cons.1 h
      obtain ⟨inside', es, hinside', htake, hrest⟩ := ih hinside (offset + c.utf8Size)
      have hchar (rest : List Char) :
          markerInside? (c :: (inside ++ ['\x7d', '\x7d'] ++ rest)) = none := by
        cases hm : markerInside? (c :: (inside ++ ['\x7d', '\x7d'] ++ rest)) with
        | none => rfl
        | some inner =>
          obtain ⟨⟨rest', heq⟩, hinner, hbreak⟩ := markerInside?_eq_some.1 hm
          rw [braced_append] at heq
          obtain ⟨rfl, hbehind⟩ := List.cons.inj heq
          -- both are cut at the first closing braces
          have hcut := hinside.cutAt rest
          rw [hbehind] at hcut
          have hinner' : IsInside ('\x7b' :: inner) := isInside_cons.2 ⟨hinner, by simp⟩
          have hcut' := hinner'.cutAt rest'
          obtain ⟨rfl, -⟩ := Prod.mk.inj (Option.some.inj (hcut'.symm.trans hcut))
          exact absurd ⟨inner, rfl, hbreak⟩ hmarker
      have hhead : inside'.head? = inside.head? := by
        simpa [List.head?_take] using congrArg List.head? htake
      refine ⟨c :: inside', es, isInside_cons.2 ⟨hinside', ?_⟩, ?_, fun rest => ?_⟩
      · rwa [List.head?_append, hhead, ← List.head?_append]
      · have hone := congrArg (List.take 1) htake
        rw [List.take_take, List.take_take] at hone
        exact congrArg (c :: ·) hone
      · obtain ⟨hrefill, hedits⟩ := hrest rest
        simp only [List.cons_append, refill_char (hchar rest), fillEdits_char (hchar rest), hrefill,
          hedits, Text.byteSize_cons, Nat.add_assoc, and_self]

/-- What is jumped over as a marker, as the text that is between its first braces and its last. -/
theorem exists_refill_braced (hfill : Fills fill) (h : IsInside inside) (offset : Nat) :
    ∃ inside' es, IsInside inside' ∧ ∀ rest,
      refill fill offset (braced inside ++ rest) =
        braced inside' ++ refill fill (offset + byteSize (braced inside)) rest ∧
      fillEdits fill offset (braced inside ++ rest) =
        es ++ fillEdits fill (offset + byteSize (braced inside)) rest := by
  have hopen : IsInside ('\x7b' :: '\x7b' :: inside) :=
    isInside_cons.2 ⟨isInside_cons.2 ⟨h, by simp⟩, by simp⟩
  obtain ⟨new, es, hnew, htake, hrest⟩ := exists_refill_inside hfill hopen offset
  obtain ⟨inside', rfl⟩ : ∃ inside', new = '\x7b' :: '\x7b' :: inside' := by
    rw [List.take_succ_cons, List.take_succ_cons, List.take_zero] at htake
    refine ⟨new.drop 2, ?_⟩
    conv_lhs => rw [← List.take_append_drop 2 new, htake]
    rfl
  exact ⟨inside', es, (isInside_cons.1 (isInside_cons.1 hnew).1).1, hrest⟩

/-- What a text that is cut off sees of what follows it: its front, and whether there are closing braces
anywhere. The second text can take the place of the first one. -/
structure SameFront (cs cs' : List Char) : Prop where
  head : cs'.head? = cs.head?
  markup : mayStartMarkup cs' = mayStartMarkup cs
  closing : ¬ ['\x7d', '\x7d'] <:+: cs → ¬ ['\x7d', '\x7d'] <:+: cs'

theorem SameFront.refl (cs : List Char) : SameFront cs cs := ⟨rfl, rfl, id⟩

theorem SameFront.nil {cs' : List Char} (h : SameFront [] cs') : cs' = [] :=
  List.head?_eq_none_iff.1 h.head

/-- Whether markup starts is told by two characters. -/
theorem mayStartMarkup_cons {cs' : List Char} (h : cs'.head? = cs.head?) :
    mayStartMarkup (c :: cs') = mayStartMarkup (c :: cs) := by
  cases cs with
  | nil => rw [List.head?_eq_none_iff.1 h]
  | cons d cs =>
    obtain ⟨cs', rfl⟩ : ∃ behind, cs' = d :: behind := List.head?_eq_some_iff.1 h
    unfold mayStartMarkup
    split <;> simp_all

/-- The same character in front of texts with the same front. -/
theorem SameFront.cons {cs' : List Char} (h : SameFront cs cs') : SameFront (c :: cs) (c :: cs') := by
  refine ⟨rfl, mayStartMarkup_cons h.head, ?_⟩
  have hprefix : ['\x7d', '\x7d'] <+: c :: cs' ↔ ['\x7d', '\x7d'] <+: c :: cs := by
    have hhead := h.head
    cases cs <;> cases cs' <;> simp_all [List.cons_prefix_cons]
  rw [List.infix_cons_iff, List.infix_cons_iff, hprefix, not_or, not_or]
  exact And.imp_right h.closing

/-- Two texts between braces have the same front. -/
theorem SameFront.braced (inside inside' rest rest' : List Char) :
    SameFront (braced inside ++ rest) (Markup.braced inside' ++ rest') := by
  refine ⟨by simp [Markup.braced], by simp [Markup.braced, mayStartMarkup], fun hno => ?_⟩
  exact absurd ⟨['\x7b', '\x7b'] ++ inside, rest, by simp [Markup.braced]⟩ hno

/-- A text with new insides has the same front. -/
theorem SameFront.refill {value rest rest' : List Char} (h : SameFront rest rest') (offset : Nat) :
    SameFront (value ++ rest) (Markup.refill fill offset value ++ rest') := by
  induction offset, value using marker_induction with
  | nil offset => exact h
  | char offset c cs hm ih =>
    rw [refill_char hm]
    exact ih.cons
  | marker offset inside behind hinside hbreak ih =>
    rw [refill_braced hinside hbreak, List.append_assoc, List.append_assoc]
    exact .braced ..

/-- Only the empty text is refilled to the empty text. -/
theorem refill_eq_nil {offset : Nat} : refill fill offset cs = [] ↔ cs = [] := by
  have hfront : SameFront (cs ++ []) (refill fill offset cs ++ []) := (SameFront.refl []).refill offset
  have hhead := hfront.head
  rw [List.append_nil, List.append_nil] at hhead
  rw [← List.head?_eq_none_iff, hhead, List.head?_eq_none_iff]

/-- A text is cut off at the same place when it is refilled, and what follows it is replaced by what it
cannot tell from that. -/
theorem TextCut.refill {first : Bool} {value rest rest' : List Char} (hfill : Fills fill)
    (h : TextCut first value rest) (hrest : SameFront rest rest') (offset : Nat) :
    TextCut first (refill fill offset value) rest' := by
  induction h generalizing offset with
  | last first =>
    obtain rfl := hrest.nil
    exact .last first
  | stop hmarkup => exact .stop (hrest.markup.trans hmarkup)
  | @marker first inside value rest hinside _ ih =>
    obtain ⟨inside', es, hinside', hafter⟩ := exists_refill_braced hfill hinside offset
    rw [(hafter value).1]
    exact .marker hinside' (ih hrest _)
  | @char first c value rest hmarker hgo _ ih =>
    have hfront : SameFront (value ++ rest) (Markup.refill fill (offset + c.utf8Size) value ++ rest') :=
      hrest.refill _
    have hclose := markerLength?_eq_none.1 hmarker
    have hnone : markerInside? (c :: value) = none :=
      markerInside?_eq_none (List.prefix_append (c :: value) rest) hclose
    rw [refill_char hnone]
    refine .char ?_ ?_ (ih hrest _)
    · refine markerLength?_eq_none.2 fun behind heq => ?_
      obtain ⟨rfl, hbehind⟩ := List.cons.inj heq
      have hhead := hfront.head
      rw [hbehind] at hhead
      obtain ⟨more, hmore⟩ := List.head?_eq_some_iff.1 hhead.symm
      -- without closing braces before, there are none after
      have hno : ¬ ['\x7d', '\x7d'] <:+: value ++ rest := by
        rw [hmore, List.infix_cons_iff, not_or]
        exact ⟨by simp [List.cons_prefix_cons], hclose more (by rw [hmore])⟩
      have hno' := hfront.closing hno
      rw [hbehind, List.infix_cons_iff, not_or] at hno'
      exact hno'.2
    · exact hgo.imp_right fun h => (mayStartMarkup_cons hfront.head).trans h

/-- What is refilled in one piece with a text behind it is refilled as two texts, as no marker reaches
over the place where a text is cut off. -/
def Settled (fill : Span → Option (List Char)) (offset : Nat) (value rest : List Char) : Prop :=
  ∀ more, more <+: rest →
    refill fill offset (value ++ more) =
      refill fill offset value ++ refill fill (offset + byteSize value) more ∧
    fillEdits fill offset (value ++ more) =
      fillEdits fill offset value ++ fillEdits fill (offset + byteSize value) more

/-- A text that is cut off is refilled by itself, whatever is refilled together with it. -/
theorem TextCut.settled {first : Bool} {value rest : List Char} (hfill : Fills fill)
    (h : TextCut first value rest) (offset : Nat) : Settled fill offset value rest := by
  intro more hmore
  induction h generalizing offset with
  | last first => simp [Markup.refill, refillFrom, fillEdits, markersFrom]
  | stop hmarkup => simp [Markup.refill, refillFrom, fillEdits, markersFrom]
  | @marker first inside value rest hinside _ ih =>
    obtain ⟨inside', es, -, hafter⟩ := exists_refill_braced hfill hinside offset
    obtain ⟨hrefill, hedits⟩ := ih (offset + byteSize (braced inside)) hmore
    rw [List.append_assoc, (hafter _).1, (hafter _).1, (hafter _).2, (hafter _).2, hrefill, hedits,
      Text.byteSize_append, List.append_assoc, List.append_assoc, Nat.add_assoc]
    exact ⟨rfl, rfl⟩
  | @char first c value rest hmarker _ _ ih =>
    obtain ⟨hrefill, hedits⟩ := ih (offset + c.utf8Size) hmore
    have hnone (front : List Char) (h : front <+: value ++ rest) :
        markerInside? (c :: front) = none :=
      markerInside?_eq_none (List.cons_prefix_cons.2 ⟨rfl, h⟩) (markerLength?_eq_none.1 hmarker)
    have hvalue := hnone value (List.prefix_append value rest)
    have hboth := hnone (value ++ more) ((List.prefix_append_right_inj value).2 hmore)
    rw [List.cons_append, refill_char hvalue, refill_char hboth, fillEdits_char hvalue,
      fillEdits_char hboth, hrefill, hedits, Text.byteSize_cons, Nat.add_assoc]
    exact ⟨rfl, rfl⟩

/-- Two texts that follow each other are one. -/
theorem Settled.append {value more rest : List Char} (h : Settled fill offset value (more ++ rest))
    (h' : Settled fill (offset + byteSize value) more rest) :
    Settled fill offset (value ++ more) rest := by
  intro behind hbehind
  obtain ⟨hone, hone'⟩ := h more (List.prefix_append more rest)
  obtain ⟨htwo, htwo'⟩ := h (more ++ behind) ((List.prefix_append_right_inj more).2 hbehind)
  obtain ⟨hlast, hlast'⟩ := h' behind hbehind
  rw [List.append_assoc, htwo, htwo', hone, hone', hlast, hlast', Text.byteSize_append,
    List.append_assoc, List.append_assoc, Nat.add_assoc]
  exact ⟨rfl, rfl⟩

end

end Stencil.Markup
