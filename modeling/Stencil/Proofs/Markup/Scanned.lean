import Stencil.Proofs.Markup.Scan

/-!
# What the scanner on offsets comes to

**The law** (`Scan.pieces_eq`): the scanner on offsets (Proofs/Markup/Scan) finds the pieces of every
source. No cut of it is refused, and every round of its loops gets ahead.

At an offset where an unread rest of the source starts, each function of the scanner comes to what the
cutting of that rest comes to, and leaves the offset where that one stops. There is one lemma for each
function: `textEnd_eq`, `comment_eq`, `endTag_eq`, `value_eq`, `attributeAt_eq`, `tagRound_of_cons`,
`tag_eq`, `rawElement_eq`, `startTag_eq`, `step_eq`. Searches add the size of what was searched
through to the offset (`offsetOf_of_cutAt`); the search for an end tag goes through a copy in lower
case, in which every character has the same size (`byteSize_map_toLower`).

The last section turns this round: from any place between two characters in front of the end, each
step that moves on succeeds and arrives at a later such place (`advance_forward`, `step_forward`,
`tagRound_forward`).

**What it does not establish.** At an offset inside of a character the scanner fails; that it never
gets there is what is shown.
-/

namespace Stencil.Markup.Scan

open Text (byteSize isBoundary)

variable {source : List Char}

/-! ## Unread rests -/

section

variable {c : Char} {cs rest piece : List Char}

/-- A rest of the source starts between two characters. -/
theorem boundary_offsetOf (h : cs <:+ source) :
    isBoundary (offsetOf (byteSize source) cs) source = true := by
  obtain ⟨before, rfl⟩ := h
  exact Text.isBoundary_iff.2 ⟨before, cs, rfl, offsetOf_append before cs⟩

/-- Every place where the source can be cut is where an unread rest starts. -/
theorem exists_offsetOf {index : Nat} (h : isBoundary index source = true) :
    ∃ cs, cs <:+ source ∧ index = offsetOf (byteSize source) cs := by
  obtain ⟨before, cs, rfl, rfl⟩ := Text.isBoundary_iff.1 h
  exact ⟨cs, List.suffix_append _ _, (offsetOf_append before cs).symm⟩

/-- Dropping up to where a rest starts leaves the rest. -/
theorem dropBytes?_offsetOf (h : cs <:+ source) :
    Text.dropBytes? (offsetOf (byteSize source) cs) source = some cs := by
  rw [Text.dropBytes?_of_boundary (boundary_offsetOf h)]
  obtain ⟨before, rfl⟩ := h
  rw [offsetOf_append, Text.dropBytes_append]

/-- Slicing from where a rest starts to where a later one does gives what was read between them. -/
theorem slice?_between (h : cs <:+ source) (hcs : cs = piece ++ rest) :
    Text.slice? (offsetOf (byteSize source) cs) (offsetOf (byteSize source) rest) source =
      some piece := (holds_spanBetween h hcs).slice?

theorem offsetOf_nil (size : Nat) : offsetOf size [] = size := rfl

/-- What stands behind a piece starts where the piece ends. -/
theorem offsetOf_add_piece (h : cs <:+ source) (hcs : cs = piece ++ rest) :
    offsetOf (byteSize source) cs + byteSize piece = offsetOf (byteSize source) rest := by
  subst hcs
  exact offsetOf_add (Text.byteSize_le_of_suffix h)

/-- Behind a character the next rest starts by its size later. -/
theorem offsetOf_cons_add (h : c :: cs <:+ source) :
    offsetOf (byteSize source) (c :: cs) + c.utf8Size = offsetOf (byteSize source) cs := by
  have hcs : c :: cs = [c] ++ cs := rfl
  have hadd := offsetOf_add_piece h hcs
  rwa [Text.byteSize_cons, Text.byteSize_nil, Nat.add_zero] at hadd

/-- A rest behind a character starts later. -/
theorem offsetOf_cons_lt (h : c :: cs <:+ source) (hrest : rest <:+ cs) :
    offsetOf (byteSize source) (c :: cs) < offsetOf (byteSize source) rest :=
  (cuts_spanBetween h hrest).proper

/-- A rest with a character starts in front of the end. -/
theorem offsetOf_cons_lt_size (h : c :: cs <:+ source) :
    offsetOf (byteSize source) (c :: cs) < byteSize source := offsetOf_cons_lt h List.nil_suffix

/-- Passing a character gets ahead. -/
theorem ahead_offsetOf (h : c :: cs <:+ source) (hrest : rest <:+ cs) :
    Ahead source (offsetOf (byteSize source) (c :: cs)) (offsetOf (byteSize source) rest) :=
  ⟨offsetOf_cons_lt h hrest, Nat.sub_le _ _⟩

/-! ## Moving on -/

/-- The character at the start of a rest. -/
theorem peek_eq (h : cs <:+ source) :
    peek source (offsetOf (byteSize source) cs) = some (Text.charAt 0 cs) := by
  rw [peek, dropBytes?_offsetOf h]
  rfl

/-- One character further, the next rest starts. -/
theorem advance_eq (h : c :: cs <:+ source) :
    advance source (offsetOf (byteSize source) (c :: cs)) = some (offsetOf (byteSize source) cs) := by
  rw [advance, peek_eq h]
  exact congrArg some (offsetOf_cons_add h)

/-- Characters of a class are passed up to where the rest without them starts. -/
theorem skipWhile_eq (p : Char → Bool) (h : cs <:+ source) :
    skipWhile source p (offsetOf (byteSize source) cs) =
      some (offsetOf (byteSize source) (cs.dropWhile p)) := by
  induction cs with
  | nil =>
    rw [skipWhile, dif_neg (by simp [offsetOf_nil])]
    rfl
  | cons c cs ih =>
    rw [skipWhile, dif_pos (offsetOf_cons_lt_size h), peek_eq h, List.dropWhile_cons]
    show (if p c then skipWhile source p (offsetOf (byteSize source) (c :: cs) + c.utf8Size) else _) = _
    by_cases hp : p c = true
    · rw [if_pos hp, if_pos hp, offsetOf_cons_add h]
      exact ih (suffix_of_cons h)
    · rw [if_neg hp, if_neg hp]

/-- A search finds the mark behind what is cut off in front of it. -/
theorem find?_of_cutAt {mark before after : List Char}
    (h : Text.cutAt mark cs = some (before, after)) : Text.find? mark cs = some (byteSize before) := by
  rw [Text.find?, h]
  rfl

/-- A search for a mark that is not there finds nothing. -/
theorem find?_eq_none {mark : List Char} (h : Text.cutAt mark cs = none) :
    Text.find? mark cs = none := by
  rw [Text.find?, h]
  rfl

/-- Blanks are passed. -/
theorem skipBlanks_eq (h : cs <:+ source) :
    skipWhile source Text.isBlank (offsetOf (byteSize source) cs) =
      some (offsetOf (byteSize source) (skipBlanks cs)) := skipWhile_eq _ h

/-- The sum of the offset, the size of what was searched through and the size of the mark is where the
text behind the mark starts. -/
theorem offsetOf_of_cutAt {mark before after : List Char} (h : cs <:+ source)
    (hcut : Text.cutAt mark cs = some (before, after)) :
    offsetOf (byteSize source) cs + byteSize before + byteSize mark =
      offsetOf (byteSize source) after := by
  rw [Nat.add_assoc, ← Text.byteSize_append, offsetOf_add_piece h (Text.eq_of_cutAt hcut)]

/-- A tag is passed up to behind its `>`. -/
theorem throughTag_eq (h : cs <:+ source) :
    throughTag source (offsetOf (byteSize source) cs) =
      some (offsetOf (byteSize source) (afterTag cs)) := by
  rw [throughTag, dropBytes?_offsetOf h, afterTag, Text.cutAtChar]
  cases hcut : Text.cutAt ['>'] cs with
  | none =>
    simp only [find?_eq_none hcut, Option.bind_eq_bind, Option.bind_some]
    rfl
  | some cut =>
    obtain ⟨before, after⟩ := cut
    simp only [find?_of_cutAt hcut, Option.bind_eq_bind, Option.bind_some]
    exact congrArg some (offsetOf_of_cutAt h hcut)

end

/-! ## Texts -/

section

variable {c : Char} {cs rest inside : List Char}

/-- What ends a text is what may start markup. -/
theorem endsText_eq (cs : List Char) : endsText cs = mayStartMarkup cs := by
  rcases cs with _ | ⟨c, _ | ⟨d, cs⟩⟩
  · rfl
  · by_cases hc : c = '<'
    · subst hc
      decide
    · simp [endsText, mayStartMarkup, hc]
  · by_cases hc : c = '<'
    · subst hc
      rfl
    · simp [endsText, mayStartMarkup, hc]

/-- At an interpolation marker, the search for its closing braces finds them behind its inside. -/
theorem closingBraces_braced (h : IsInside inside) (rest : List Char) :
    closingBraces (braced inside ++ rest) = some (some (byteSize inside)) := by
  have hbehind : Text.dropBytes? 2 (braced inside ++ rest) =
      some (inside ++ ['\x7d', '\x7d'] ++ rest) := by
    have hcut := dropBytes?_offsetOf
      (List.suffix_append ['\x7b', '\x7b'] (inside ++ ['\x7d', '\x7d'] ++ rest))
    rw [offsetOf_append] at hcut
    rw [braced_append]
    exact hcut
  rw [closingBraces, if_pos (by simp [braced]), hbehind, Option.map_some,
    find?_of_cutAt (h.cutAt rest)]

/-- Elsewhere, nothing is found: there are no braces, or nothing closes them. -/
theorem closingBraces_of_none (h : markerLength? cs = none) : closingBraces cs = some none := by
  by_cases hopen : ['\x7b', '\x7b'].isPrefixOf cs = true
  · obtain ⟨rest, rfl⟩ := List.isPrefixOf_iff_prefix.1 hopen
    have hcut := dropBytes?_offsetOf (List.suffix_append ['\x7b', '\x7b'] rest)
    rw [offsetOf_append] at hcut
    have hnone : Text.cutAt ['\x7d', '\x7d'] rest = none := by
      rw [Text.cutAt_eq_none (List.cons_ne_nil _ _)]
      exact markerLength?_eq_none.1 h rest rfl
    rw [closingBraces, if_pos hopen]
    show Option.map _ (Text.dropBytes? (byteSize ['\x7b', '\x7b']) _) = _
    rw [hcut, Option.map_some, find?_eq_none hnone]
  · rw [closingBraces, if_neg hopen]

/-- The end of a text. What `first` says of a cut, the offset says where the text starts. -/
theorem textEnd_eq {start : Nat} {first : Bool} (h : cs <:+ source)
    (hfirst : first = !decide (start < offsetOf (byteSize source) cs))
    (hstart : start ≤ offsetOf (byteSize source) cs) :
    textEnd source start (offsetOf (byteSize source) cs) =
      some (offsetOf (byteSize source) (cutText 0 first cs).2) := by
  induction hn : cs.length using Nat.strong_induction_on generalizing cs first with
  | _ n ih =>
    cases cs with
    | nil =>
      rw [textEnd, dif_neg (by simp [offsetOf_nil]), cutText]
    | cons c cs =>
      have hlt := offsetOf_cons_lt_size h
      cases hm : markerLength? (c :: cs) with
      | some length =>
        -- the marker is jumped over as a whole
        obtain ⟨inside, rest, heq, hinside⟩ := exists_braced_of_markerLength? hm
        rw [heq] at h hlt hn hstart ⊢
        have hrest : rest <:+ source := (List.suffix_append _ _).trans h
        have hjump := offsetOf_add_piece h rfl
        rw [byteSize_braced] at hjump
        have hbehind : start < offsetOf (byteSize source) rest := by omega
        have hshort : rest.length < n := by
          rw [← hn, List.length_append]
          simp [braced]
        rw [textEnd, dif_pos hlt, dropBytes?_offsetOf h]
        simp only [closingBraces_braced hinside]
        rw [Nat.add_assoc, hjump, cutText_braced first hinside]
        exact ih _ hshort hrest (by simp [hbehind]) (Nat.le_of_lt hbehind) rfl
      | none =>
        have hshort : cs.length < n := by simp [← hn]
        have hbehind := offsetOf_cons_lt h (List.suffix_refl cs)
        rw [textEnd, dif_pos hlt, dropBytes?_offsetOf h]
        simp only [closingBraces_of_none hm, Text.charAt_zero_cons]
        rw [cutText, hm, offsetOf_cons_add h, endsText_eq, hfirst, Bool.not_not]
        by_cases hend : (decide (start < offsetOf (byteSize source) (c :: cs)) &&
            mayStartMarkup (c :: cs)) = true
        · rw [if_pos hend]
          simp only [if_pos hend]
        · rw [if_neg hend]
          simp only [if_neg hend]
          exact ih _ hshort (suffix_of_cons h) (by simp; omega) (by omega) rfl

/-- A text that starts at a character ends behind it. -/
theorem text_eq (h : c :: cs <:+ source) :
    text source (offsetOf (byteSize source) (c :: cs)) =
      some ([.text (cutText 0 true (c :: cs)).1
          (spanBetween (byteSize source) (c :: cs) (cutText 0 true (c :: cs)).2)],
        offsetOf (byteSize source) (cutText 0 true (c :: cs)).2) := by
  have hend : textEnd source (offsetOf (byteSize source) (c :: cs)) _ =
      some (offsetOf (byteSize source) (cutText 0 true (c :: cs)).2) :=
    textEnd_eq h (by simp) (Nat.le_refl _)
  have hlt := offsetOf_cons_lt h (cutText_suffix c cs)
  have hslice := slice?_between h (cutText_append 0 true (c :: cs)).symm
  simp only [text, hend, Option.bind_eq_bind, Option.bind_some, if_neg (Nat.ne_of_lt hlt), hslice]
  rfl

end

/-! ## Comments and end tags -/

section

variable {cs : List Char}

/-- What was cut off from an unread rest, and where the rest of it starts. -/
def located (source : List Char) (cut : List Piece × List Char) : Option (List Piece × Nat) :=
  some (cut.1, offsetOf (byteSize source) cut.2)

/-- A comment. -/
theorem comment_eq (h : "<!--".toList ++ cs <:+ source) :
    comment source (offsetOf (byteSize source) ("<!--".toList ++ cs)) =
      located source (cutComment (byteSize source) ("<!--".toList ++ cs) cs) := by
  have hbody : cs <:+ source := (List.suffix_append _ _).trans h
  have hstart : offsetOf (byteSize source) ("<!--".toList ++ cs) + 4 = offsetOf (byteSize source) cs :=
    offsetOf_add_piece h rfl
  simp only [comment, hstart, dropBytes?_offsetOf hbody, Option.bind_eq_bind, Option.bind_some]
  unfold cutComment
  cases hcut : Text.cutAt ['-', '-', '>'] cs with
  | none =>
    have hslice := slice?_between hbody (List.append_nil cs).symm
    have hle : offsetOf (byteSize source) ("<!--".toList ++ cs) ≤ byteSize source := Nat.sub_le _ _
    simp only [find?_eq_none hcut]
    rw [offsetOf_nil] at hslice
    rw [hslice, Nat.max_eq_left hle]
    rfl
  | some cut =>
    obtain ⟨value, rest⟩ := cut
    have hstop : offsetOf (byteSize source) cs + byteSize value + 3 = offsetOf (byteSize source) rest :=
      offsetOf_of_cutAt hbody hcut
    have heq := Text.eq_of_cutAt hcut
    rw [List.append_assoc] at heq
    have hslice := slice?_between hbody heq
    simp only [find?_of_cutAt hcut, hstop]
    rw [offsetOf_add_piece hbody heq, hslice]
    rfl

/-- The name of a tag. -/
theorem tagName_eq (h : cs <:+ source) :
    tagName source (offsetOf (byteSize source) cs) =
      some (String.ofList (cs.takeWhile Text.isNameChar),
        offsetOf (byteSize source) (cs.dropWhile Text.isNameChar)) := by
  have hslice := slice?_between h (List.takeWhile_append_dropWhile (p := Text.isNameChar)).symm
  simp only [tagName, skipWhile_eq _ h, Option.bind_eq_bind, Option.bind_some, hslice]
  rfl

/-- An end tag. -/
theorem endTag_eq (h : '<' :: '/' :: cs <:+ source) :
    endTag source (offsetOf (byteSize source) ('<' :: '/' :: cs)) =
      located source (cutEndTag (byteSize source) ('<' :: '/' :: cs) cs) := by
  have hslash := suffix_of_cons h
  have hname := suffix_of_cons hslash
  have hbehind := (List.dropWhile_suffix Text.isNameChar).trans hname
  simp only [endTag, advance_eq h, advance_eq hslash, tagName_eq hname, throughTag_eq hbehind,
    Option.bind_eq_bind, Option.bind_some]
  rfl

end

/-! ## Attributes -/

section

variable {cs : List Char}

/-- The value that is cut off from an unread rest. -/
def valueAt (source cs : List Char) : Value :=
  { span := spanBetween (byteSize source) (valueStart cs) (cutValue cs).2.2.1
    quote := (cutValue cs).2.1
    closed := (cutValue cs).2.2.2.isSome
    stop := offsetOf (byteSize source) ((cutValue cs).2.2.2.getD []) }

/-- A value: between quotes, behind a quote that nothing closes, or bare. -/
theorem value_eq (h : cs <:+ source) :
    value source (offsetOf (byteSize source) cs) = some (valueAt source cs) := by
  cases cs with
  | nil =>
    simp only [value, peek_eq h, skipWhile_eq _ h, Option.bind_eq_bind, Option.bind_some]
    rfl
  | cons q rest =>
    simp only [value, peek_eq h, Text.charAt_zero_cons, Option.bind_eq_bind, Option.bind_some]
    -- Between quotes the value goes up to the next quote; else it is a run of bare characters.
    by_cases hq : Text.isQuote q = true
    · have hrest := suffix_of_cons h
      simp only [if_pos hq, advance_eq h, dropBytes?_offsetOf hrest, Option.bind_some]
      cases hcut : Text.cutAt [q] rest with
      | none =>
        have hvalue : cutValue (q :: rest) = (rest, some q, [], none) := by
          simp [cutValue, hq, Text.cutAtChar, hcut]
        simp only [find?_eq_none hcut, valueAt, valueStart, hvalue]
        rfl
      | some cut =>
        obtain ⟨raw, behind⟩ := cut
        have hvalue : cutValue (q :: rest) = (raw, some q, q :: behind, some behind) := by
          simp [cutValue, hq, Text.cutAtChar, hcut]
        obtain rfl := Text.eq_of_cutAt hcut
        rw [List.append_assoc] at hrest
        have hadd := offsetOf_add_piece hrest rfl
        have hclose : q :: behind <:+ source := (List.suffix_append _ _).trans hrest
        simp only [find?_of_cutAt hcut, valueAt, valueStart, hvalue]
        rw [List.append_assoc, hadd, List.singleton_append, advance_eq hclose]
        rfl
    · have hvalue : cutValue (q :: rest) =
          ((q :: rest).takeWhile isBare, none, (q :: rest).dropWhile isBare,
            some ((q :: rest).dropWhile isBare)) := by
        rw [cutValue, if_neg hq]
        rfl
      have hskip := skipWhile_eq isBare h
      simp only [if_neg hq, valueAt, valueStart, hvalue]
      show Option.bind (skipWhile source isBare _) _ = _
      rw [hskip]
      rfl

/-- An attribute that was read, with the offset where the rest of it starts. -/
def foundAt (source : List Char) (a : ReadAttribute) : FoundAttribute :=
  ⟨a.found, a.errors, offsetOf (byteSize source) a.rest⟩

/-- What stands behind the name of an attribute, and the blanks behind it, is an equals sign or not. -/
theorem attribute?_of_name {size : Nat} {name behind : List Char} (hcut : cutName cs = (name, behind))
    (hne : name ≠ []) : attribute? size cs = some (
      if Text.charAt 0 (skipBlanks behind) == '=' then
        valuedAttribute size name cs ((skipBlanks behind).drop 1)
      else bareAttribute size name cs behind) := by
  obtain ⟨c, name, rfl⟩ := List.exists_cons_of_ne_nil hne
  rw [attribute?, hcut]
  dsimp only
  split
  · next rest hrest =>
    rw [hrest]
    rfl
  · next hno =>
    rw [if_neg]
    intro hsign
    cases hrest : skipBlanks behind with
    | nil =>
      rw [hrest] at hsign
      exact absurd hsign (by decide)
    | cons d rest =>
      rw [hrest, Text.charAt_zero_cons] at hsign
      exact hno rest (by rw [hrest, eq_of_beq hsign])

/-- The value behind an equals sign, as the attribute has it. -/
theorem slice?_valueAt (h : cs <:+ source) :
    Text.slice? (valueAt source cs).span.start (valueAt source cs).span.stop source =
      some (cutValue cs).1 :=
  slice?_between ((valueStart_suffix cs).trans h) (valueStart_eq cs).1

/-- An attribute, or none. -/
theorem attributeAt_eq (h : cs <:+ source) :
    attributeAt source (offsetOf (byteSize source) cs) =
      some ((attribute? (byteSize source) cs).map (foundAt source)) := by
  let name := cs.takeWhile fun c => !Text.endsAttributeName c
  let behind := cs.dropWhile fun c => !Text.endsAttributeName c
  have hcut : cutName cs = (name, behind) := rfl
  have hcs : cs = name ++ behind := List.takeWhile_append_dropWhile.symm
  have hskip : skipWhile source (fun c => !Text.endsAttributeName c) (offsetOf (byteSize source) cs) =
      some (offsetOf (byteSize source) behind) := skipWhile_eq _ h
  have hbehind : behind <:+ source := (List.dropWhile_suffix _).trans h
  simp only [attributeAt, hskip, Option.bind_eq_bind, Option.bind_some]
  by_cases hname : name = []
  · have hsame : behind = cs := by rw [hcs, hname, List.nil_append]
    rw [hsame, if_pos rfl, attribute?, hcut, hname]
    rfl
  · have hne : offsetOf (byteSize source) behind ≠ offsetOf (byteSize source) cs := by
      have hadd := offsetOf_add_piece h hcs
      have hpos := Text.byteSize_pos hname
      omega
    have hsign : skipBlanks behind <:+ source := (skipBlanks_suffix behind).trans hbehind
    simp only [if_neg hne, slice?_between h hcs, skipBlanks_eq hbehind, peek_eq hsign, attribute?_of_name hcut hname,
      Option.bind_some, Option.map_some]
    by_cases heq : (Text.charAt 0 (skipBlanks behind) == '=') = true
    · simp only [if_pos heq]
      cases hrest : skipBlanks behind with
      | nil =>
        rw [hrest] at heq
        exact absurd heq (by decide)
      | cons d rest =>
        rw [hrest] at hsign
        have hvalue : skipBlanks rest <:+ source :=
          (skipBlanks_suffix rest).trans (suffix_of_cons hsign)
        have hle : offsetOf (byteSize source) cs ≤ byteSize source := Nat.sub_le _ _
        simp only [advance_eq hsign, skipBlanks_eq (suffix_of_cons hsign), value_eq hvalue,
          slice?_valueAt hvalue, Option.bind_some, Nat.max_eq_left hle]
        rw [List.drop_one, List.tail_cons, foundAt, valuedAttribute, valueAt, valueStart]
        obtain ⟨value, quote, valueRest, closing⟩ := cutValue (skipBlanks rest)
        cases closing with
        | none => rfl
        | some closing => rfl
    · simp only [if_neg heq]
      rfl

end

/-! ## Start tags -/

section

variable {c : Char} {cs rest : List Char}

/-- The round of the loop over a start tag in front of `c`, behind the blanks. -/
def roundAt (source : List Char) (c : Char) (rest : List Char) : Round :=
  if c == '>' then .ended .closed (offsetOf (byteSize source) rest)
  else if c == '/' && Text.charAt 0 rest == '>' then
    .ended .selfClosed (offsetOf (byteSize source) (rest.drop 1))
  else
    match attribute? (byteSize source) (c :: rest) with
    | some a => .found (foundAt source a)
    | none => .stray (offsetOf (byteSize source) rest)

/-- At the end of the source a start tag has no end. -/
theorem tagRound_of_nil (h : cs <:+ source) (hcs : skipBlanks cs = []) :
    tagRound source (offsetOf (byteSize source) cs) =
      some (.ended .unterminated (byteSize source)) := by
  have hskip := skipBlanks_eq h
  rw [hcs, offsetOf_nil] at hskip
  simp only [tagRound, hskip, Option.bind_eq_bind, Option.bind_some, if_neg (Nat.lt_irrefl _)]
  rfl

/-- A round of a start tag, by the first character that is no blank. -/
theorem tagRound_of_cons (h : cs <:+ source) (hcs : skipBlanks cs = c :: rest) :
    tagRound source (offsetOf (byteSize source) cs) = some (roundAt source c rest) := by
  have hskip := skipBlanks_eq h
  have hfrom : c :: rest <:+ source := hcs ▸ (skipBlanks_suffix cs).trans h
  rw [hcs] at hskip
  simp only [tagRound, hskip, dropBytes?_offsetOf hfrom, Text.charAt_zero_cons,
    Text.charAt_succ_cons, Option.bind_eq_bind, Option.bind_some,
    if_pos (offsetOf_cons_lt_size hfrom)]
  unfold roundAt
  by_cases hclose : (c == '>') = true
  · rw [if_pos hclose, if_pos hclose, advance_eq hfrom]
    rfl
  · rw [if_neg hclose, if_neg hclose]
    by_cases hself : (c == '/' && Text.charAt 0 rest == '>') = true
    · rw [if_pos hself, if_pos hself, advance_eq hfrom]
      have hsign : Text.charAt 0 rest = '>' := by
        exact eq_of_beq (Bool.and_eq_true_iff.1 hself).2
      cases rest with
      | nil => exact absurd hsign (by decide)
      | cons d rest =>
        simp only [Option.bind_some, advance_eq (suffix_of_cons hfrom)]
        rfl
    · rw [if_neg hself, if_neg hself, attributeAt_eq hfrom]
      cases attribute? (byteSize source) (c :: rest) with
      | some a => rfl
      | none =>
        simp only [Option.map_none, Option.bind_some, advance_eq hfrom]
        rfl

/-- A round that leaves what stands behind the first character that is no blank gets ahead. -/
theorem ahead_of_skipBlanks {left : List Char} (h : cs <:+ source) (hcs : skipBlanks cs = c :: rest)
    (hleft : left <:+ rest) :
    Ahead source (offsetOf (byteSize source) cs) (offsetOf (byteSize source) left) := by
  have hblanks := skipBlanks_suffix cs
  rw [hcs] at hblanks
  have hahead := ahead_offsetOf (hblanks.trans h) hleft
  exact ⟨Nat.lt_of_le_of_lt (offsetOf_mono hblanks) hahead.lt, hahead.le⟩

/-- In front of an attribute or a stray character the tag does not end. -/
theorem roundAt_of_open (hclose : c = '>' → False) (hself : ∀ rest', c = '/' → rest = '>' :: rest' → False) :
    roundAt source c rest = match attribute? (byteSize source) (c :: rest) with
      | some a => .found (foundAt source a)
      | none => .stray (offsetOf (byteSize source) rest) := by
  rw [roundAt, if_neg (by simpa using hclose), if_neg]
  intro hsigns
  obtain ⟨hslash, hsign⟩ := Bool.and_eq_true_iff.1 hsigns
  cases rest with
  | nil => exact absurd (eq_of_beq hsign) (by decide)
  | cons d rest => exact hself rest (eq_of_beq hslash) (by rw [← eq_of_beq hsign]; rfl)

/-- A start tag that was read, with the offset where the rest of it starts. -/
def tagAt (source : List Char) (t : ReadTag) : FoundTag :=
  ⟨t.attributes, t.errors, t.tagEnd, offsetOf (byteSize source) t.rest⟩

/-- The loop over a start tag ends, and comes to what reading its attributes comes to. -/
theorem tag_eq (h : cs <:+ source) : tag source (offsetOf (byteSize source) cs) =
    some (tagAt source (attributes (byteSize source) cs)) := by
  fun_induction attributes (byteSize source) cs with
  | case1 cs hcs =>
    rw [tag, tagRound_of_nil h hcs]
    rfl
  | case2 cs rest hcs =>
    rw [tag, tagRound_of_cons h hcs]
    rfl
  | case3 cs rest hcs =>
    rw [tag, tagRound_of_cons h hcs]
    rfl
  | case4 cs c rest hclose hself hcs hlen a ha hlt ih =>
    have hfrom : c :: rest <:+ source := hcs ▸ (skipBlanks_suffix cs).trans h
    obtain ⟨_, _, heq, hrest⟩ := attribute?_suffix ha
    obtain ⟨rfl, rfl⟩ := List.cons.inj heq
    have hround := tagRound_of_cons h hcs
    rw [roundAt_of_open hclose hself, ha] at hround
    have hahead := ahead_of_skipBlanks h hcs hrest
    rw [tag, hround]
    simp only [foundAt, dif_pos hahead, ih (hrest.trans (suffix_of_cons hfrom))]
    rfl
  | case5 cs c rest hclose hself hcs hlen ha hlt ih =>
    have hfrom : c :: rest <:+ source := hcs ▸ (skipBlanks_suffix cs).trans h
    have hround := tagRound_of_cons h hcs
    rw [roundAt_of_open hclose hself, ha] at hround
    have hahead := ahead_of_skipBlanks h hcs (List.suffix_refl rest)
    rw [tag, hround]
    simp only [dif_pos hahead, ih (suffix_of_cons hfrom)]

end

/-! ## Elements -/

section

variable {c : Char} {cs : List Char}

/-- A copy in lower case has the same offsets. -/
theorem byteSize_map_toLower (cs : List Char) : byteSize (cs.map Char.toLower) = byteSize cs := by
  induction cs with
  | nil => rfl
  | cons c cs ih => rw [List.map_cons, Text.byteSize_cons, Text.byteSize_cons, ih, Text.utf8Size_toLower]

/-- The end tag that is found in the copy in lower case starts in the source where the body ends. -/
theorem bodyStop_eq (name : String) (h : cs <:+ source) :
    ((Text.find? (endMark name) (cs.map Char.toLower)).map
        (offsetOf (byteSize source) cs + ·)).getD (byteSize source) =
      offsetOf (byteSize source) (cs.drop (rawBody name cs).length) := by
  cases hcut : Text.cutAt (endMark name) (cs.map Char.toLower) with
  | none =>
    rw [find?_eq_none hcut, rawBody_of_none hcut, List.drop_length]
    rfl
  | some cut =>
    obtain ⟨before, after⟩ := cut
    have hbefore : (cs.take before.length).map Char.toLower = before := by
      rw [List.map_take, Text.eq_of_cutAt hcut, List.append_assoc, List.take_left]
    have hsize : byteSize before = byteSize (cs.take before.length) := by
      rw [← byteSize_map_toLower (cs.take before.length), hbefore]
    have hlength : (cs.take before.length).length = before.length := by
      rw [← List.length_map Char.toLower, hbefore]
    have hadd := offsetOf_add_piece h (List.take_append_drop before.length cs).symm
    rw [find?_of_cutAt hcut, rawBody_of_some hcut, hlength, ← hadd, hsize]
    rfl

/-- The body of an element whose contents are not markup, as a text if there is one. -/
theorem rawChildren_eq (name : String) (model : ContentModel) (h : cs <:+ source) :
    rawChildren source model
        (spanBetween (byteSize source) cs (cs.drop (rawBody name cs).length)) =
      some (if model = .rawText && !(rawBody name cs).isEmpty then
        [.text (String.ofList (rawBody name cs))
          (spanBetween (byteSize source) cs (cs.drop (rawBody name cs).length))] else []) := by
  have hbody := rawBody_append name cs
  have hadd := offsetOf_add_piece h hbody
  have hempty : decide (offsetOf (byteSize source) cs <
      offsetOf (byteSize source) (cs.drop (rawBody name cs).length)) = !(rawBody name cs).isEmpty := by
    cases hraw : rawBody name cs with
    | nil => simp
    | cons d body =>
      have hpos := Text.byteSize_pos (List.cons_ne_nil d body)
      rw [hraw] at hadd
      simp only [List.isEmpty_cons, Bool.not_false, decide_eq_true_eq]
      omega
  dsimp only [rawChildren, spanBetween]
  rw [hempty, slice?_between h hbody, Option.map_some]
  split <;> rfl

/-- An element whose contents are not markup ends where its end tag does. -/
theorem rawElement_eq {name : String} (as : List Attribute) {start : List Char} (model : ContentModel)
    (h : cs <:+ source) :
    rawElement source name as (offsetOf (byteSize source) start) (offsetOf (byteSize source) cs) model =
      some (Markup.rawElement (byteSize source) name as start cs model,
        offsetOf (byteSize source) (afterRaw name cs)) := by
  have hbehind : cs.drop (rawBody name cs).length <:+ source := (List.drop_suffix _ _).trans h
  have hchildren := rawChildren_eq name model h
  simp only [spanBetween] at hchildren
  simp only [rawElement, dropBytes?_offsetOf h, bodyStop_eq name h, hchildren, Option.bind_eq_bind,
    Option.bind_some]
  rw [Markup.rawElement, afterRaw]
  cases hrest : cs.drop (rawBody name cs).length with
  | nil =>
    rw [offsetOf_nil, if_neg (Nat.lt_irrefl _)]
    rfl
  | cons d rest =>
    rw [hrest] at hbehind
    rw [if_pos (offsetOf_cons_lt_size hbehind), throughTag_eq hbehind]
    rfl

/-- A start tag, with the body of the element if that is not markup. -/
theorem startTag_eq (h : c :: cs <:+ source) :
    startTag source (offsetOf (byteSize source) (c :: cs)) =
      located source (cutElement (byteSize source) (c :: cs) cs) := by
  have hname := suffix_of_cons h
  have hbehind : cs.dropWhile Text.isNameChar <:+ source := (List.dropWhile_suffix _).trans hname
  have htag := attributes_suffix (byteSize source) (cs.dropWhile Text.isNameChar)
  have hrest := htag.trans hbehind
  have hle : offsetOf (byteSize source) (c :: cs) ≤
      offsetOf (byteSize source) (attributes (byteSize source) (cs.dropWhile Text.isNameChar)).rest :=
    offsetOf_mono ((htag.trans (List.dropWhile_suffix _)).trans (List.suffix_cons c cs))
  simp only [startTag, advance_eq h, tagName_eq hname, tag_eq hbehind, Option.bind_eq_bind,
    Option.bind_some, tagAt, Nat.max_eq_left hle]
  simp only [cutElement]
  generalize attributes (byteSize source) (cs.dropWhile Text.isNameChar) = t at hrest ⊢
  split
  · rfl
  · cases hmodel : contentModel (String.ofList (cs.takeWhile Text.isNameChar)) with
    | markup => rfl
    | raw =>
      simp only [rawElement_eq _ _ hrest, Option.bind_some]
      rfl
    | rawText =>
      simp only [rawElement_eq _ _ hrest, Option.bind_some]
      rfl

/-! ## All pieces -/

/-- Whether a rest starts with a letter is told by its first character. -/
theorem startsWithLetter_eq_charAt (cs : List Char) :
    startsWithLetter cs = Text.isLetter (Text.charAt 0 cs) := by
  cases cs with
  | nil => rw [Text.charAt_nil]; decide
  | cons c cs => rw [Text.charAt_zero_cons]; rfl

/-- What tells an end tag. -/
theorem opensEndTag_eq (c : Char) (cs : List Char) :
    (['<', '/'].isPrefixOf (c :: cs) && Text.isLetter (Text.charAt 2 (c :: cs))) =
      (decide (c = '<') && decide (cs.head? = some '/') && startsWithLetter (cs.drop 1)) := by
  cases cs with
  | nil => simp
  | cons d cs =>
    rw [startsWithLetter_eq_charAt]
    by_cases hc : c = '<'
    · by_cases hd : d = '/'
      · simp [hc, hd]
      · simp [hc, hd, Ne.symm hd]
    · simp [hc, Ne.symm hc]

/-- What tells a declaration or an instruction. -/
theorem opensDeclaration_eq_false (hbang : ∀ rest, c = '<' → cs = '!' :: rest → False)
    (hquestion : ∀ rest, c = '<' → cs = '?' :: rest → False) :
    ¬ (Text.charAt 0 (c :: cs) == '<' &&
      (Text.charAt 1 (c :: cs) == '!' || Text.charAt 1 (c :: cs) == '?')) = true := by
  rw [Text.charAt_zero_cons, Text.charAt_succ_cons]
  intro hsigns
  simp only [Bool.and_eq_true, Bool.or_eq_true, beq_iff_eq] at hsigns
  obtain ⟨rfl, hsign⟩ := hsigns
  cases cs with
  | nil => rcases hsign with hsign | hsign <;> exact absurd hsign (by decide)
  | cons d cs =>
    rw [Text.charAt_zero_cons] at hsign
    rcases hsign with rfl | rfl
    · exact hbang cs rfl rfl
    · exact hquestion cs rfl rfl

/-- A declaration ends behind the next `>`, whichever of its first characters the search starts at. -/
theorem afterTag_cons (hc : c ≠ '>') (cs : List Char) : afterTag (c :: cs) = afterTag cs := by
  have hno : ¬ ['>'].isPrefixOf (c :: cs) = true := fun hprefix =>
    hc (eq_of_beq (Bool.and_eq_true_iff.1 hprefix).1).symm
  rw [afterTag, afterTag, Text.cutAtChar, Text.cutAtChar, Text.cutAt, if_neg hno]
  cases Text.cutAt ['>'] cs with
  | none => rfl
  | some cut => rfl

/-- One step of the scanner cuts off what is cut off from the unread rest. -/
theorem step_eq (h : c :: cs <:+ source) :
    step source (offsetOf (byteSize source) (c :: cs)) =
      located source (cutPiece (byteSize source) c cs) := by
  -- The branches in the order in which both try them: comment, declaration, end tag, start tag, text.
  unfold cutPiece
  split
  · next rest =>
    rw [step, dropBytes?_offsetOf h, Option.bind_eq_bind, Option.bind_some, if_pos (by simp)]
    exact comment_eq h
  · next rest hno =>
    have hcomment : ¬ ['<', '!', '-', '-'].isPrefixOf ('<' :: '!' :: rest) = true := by
      intro hprefix
      obtain ⟨more, heq⟩ := List.isPrefixOf_iff_prefix.1 hprefix
      exact hno more (by simpa using heq.symm)
    rw [step, dropBytes?_offsetOf h, Option.bind_eq_bind, Option.bind_some, if_neg hcomment,
      if_neg (by simp), if_pos (by simp), throughTag_eq h, afterTag_cons (by decide),
      afterTag_cons (by decide)]
    rfl
  · next rest =>
    rw [step, dropBytes?_offsetOf h, Option.bind_eq_bind, Option.bind_some, if_neg (by simp),
      if_neg (by simp), if_pos (by simp), throughTag_eq h, afterTag_cons (by decide),
      afterTag_cons (by decide)]
    rfl
  · next hcomment hbang hquestion =>
    have hopen : ¬ ['<', '!', '-', '-'].isPrefixOf (c :: cs) = true := by
      intro hprefix
      obtain ⟨more, heq⟩ := List.isPrefixOf_iff_prefix.1 hprefix
      obtain ⟨rfl, rfl⟩ := List.cons.inj heq
      exact hcomment _ rfl rfl
    have hdeclaration := opensDeclaration_eq_false hbang hquestion
    rw [step, dropBytes?_offsetOf h, Option.bind_eq_bind, Option.bind_some, if_neg hopen,
      opensEndTag_eq, if_neg hdeclaration, Text.charAt_zero_cons, Text.charAt_succ_cons,
      ← startsWithLetter_eq_charAt]
    split
    · next hend =>
      simp only [Bool.and_eq_true, decide_eq_true_eq] at hend
      obtain ⟨⟨rfl, hslash⟩, -⟩ := hend
      obtain ⟨more, rfl⟩ := List.head?_eq_some_iff.1 hslash
      exact endTag_eq h
    · by_cases hstart : (c == '<' && startsWithLetter cs) = true
      · have hstart' : (decide (c = '<') && startsWithLetter cs) = true := by simpa using hstart
        rw [if_pos hstart, if_pos hstart']
        exact startTag_eq h
      · have hstart' : ¬ (decide (c = '<') && startsWithLetter cs) = true := by simpa using hstart
        rw [if_neg hstart, if_neg hstart']
        exact text_eq h

/-- The pieces from an offset on are those of the rest that starts there. -/
theorem piecesFrom_eq (h : cs <:+ source) : piecesFrom source (offsetOf (byteSize source) cs) =
    some (Markup.piecesFrom (byteSize source) cs) := by
  fun_induction Markup.piecesFrom (byteSize source) cs with
  | case1 =>
    rw [piecesFrom, offsetOf_nil, if_neg (Nat.lt_irrefl _)]
  | case2 c cs _ ih =>
    have hrest := cutPiece_suffix (byteSize source) c cs
    rw [piecesFrom, if_pos (offsetOf_cons_lt_size h), step_eq h]
    simp only [located, dif_pos (ahead_offsetOf h hrest), ih (hrest.trans (suffix_of_cons h)),
      Option.map_some]

end

/-- The scanner on offsets finds the pieces of every source. No cut of it is refused, and every round of
its loops gets ahead, so it comes to the end of the source. -/
theorem pieces_eq (source : List Char) : pieces source = some (Markup.pieces source) := by
  have hstart : offsetOf (byteSize source) source = 0 := Nat.sub_self _
  have hall := piecesFrom_eq (List.suffix_refl source)
  rwa [hstart] at hall

/-! ## Getting ahead -/

/-- The scanner gets from one offset to a later one, which is a place in the source where it can be
cut. -/
structure Forward (source : List Char) (index next : Nat) : Prop extends Ahead source index next where
  boundary : isBoundary next source = true

section

variable {c : Char} {cs rest : List Char} {index : Nat}

/-- Passing a character goes forward to a place between two characters. -/
theorem forward_offsetOf (h : c :: cs <:+ source) (hrest : rest <:+ cs) :
    Forward source (offsetOf (byteSize source) (c :: cs)) (offsetOf (byteSize source) rest) :=
  ⟨ahead_offsetOf h hrest, boundary_offsetOf (hrest.trans (suffix_of_cons h))⟩

/-- In front of the end of the source there is a character. -/
theorem exists_offsetOf_cons (hlt : index < byteSize source) (h : isBoundary index source = true) :
    ∃ c cs, c :: cs <:+ source ∧ index = offsetOf (byteSize source) (c :: cs) := by
  obtain ⟨cs, hcs, rfl⟩ := exists_offsetOf h
  cases cs with
  | nil => exact absurd hlt (Nat.lt_irrefl _)
  | cons c cs => exact ⟨c, cs, hcs, rfl⟩

/-- One character further is forward. -/
theorem advance_forward (hlt : index < byteSize source) (h : isBoundary index source = true) :
    ∃ next, advance source index = some next ∧ Forward source index next := by
  obtain ⟨c, cs, hcs, rfl⟩ := exists_offsetOf_cons hlt h
  exact ⟨_, advance_eq hcs, forward_offsetOf hcs (List.suffix_refl cs)⟩

/-- One step of the scanner goes forward. -/
theorem step_forward (hlt : index < byteSize source) (h : isBoundary index source = true) :
    ∃ ps next, step source index = some (ps, next) ∧ Forward source index next := by
  obtain ⟨c, cs, hcs, rfl⟩ := exists_offsetOf_cons hlt h
  exact ⟨_, _, step_eq hcs, forward_offsetOf hcs (cutPiece_suffix _ c cs)⟩

/-- A round of a start tag stops where a rest starts. -/
theorem roundAt_stop (source : List Char) (c : Char) (rest : List Char) :
    ∃ left, left <:+ rest ∧ (roundAt source c rest).stop = offsetOf (byteSize source) left := by
  unfold roundAt
  split
  · exact ⟨rest, List.suffix_refl rest, rfl⟩
  · split
    · exact ⟨rest.drop 1, List.drop_suffix 1 rest, rfl⟩
    · cases ha : attribute? (byteSize source) (c :: rest) with
      | none => exact ⟨rest, List.suffix_refl rest, rfl⟩
      | some a =>
        obtain ⟨_, _, heq, hrest⟩ := attribute?_suffix ha
        obtain ⟨rfl, rfl⟩ := List.cons.inj heq
        exact ⟨a.rest, hrest, rfl⟩

/-- One round of a start tag goes forward. -/
theorem tagRound_forward (hlt : index < byteSize source) (h : isBoundary index source = true) :
    ∃ round, tagRound source index = some round ∧ Forward source index round.stop := by
  obtain ⟨cs, hcs, rfl⟩ := exists_offsetOf h
  cases hblank : skipBlanks cs with
  | nil =>
    exact ⟨_, tagRound_of_nil hcs hblank, ⟨hlt, Nat.le_refl _⟩, Text.isBoundary_byteSize source⟩
  | cons c rest =>
    have hfrom : c :: rest <:+ source := hblank ▸ (skipBlanks_suffix cs).trans hcs
    obtain ⟨left, hleft, hstop⟩ := roundAt_stop source c rest
    refine ⟨_, tagRound_of_cons hcs hblank, ?_⟩
    rw [hstop]
    exact ⟨ahead_of_skipBlanks hcs hblank hleft,
      boundary_offsetOf (hleft.trans (suffix_of_cons hfrom))⟩

end

end Stencil.Markup.Scan
