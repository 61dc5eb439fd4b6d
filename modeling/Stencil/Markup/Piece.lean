import Stencil.Markup.Basic
import Stencil.Markup.Reference
import Stencil.Markup.Tag
import Stencil.Text.Bytes

/-!
# Cutting markup into pieces

A template is cut, from left to right, into comments, texts, start tags, end tags and elements that
are complete in themselves: void elements, self-closed ones, and those whose contents are not
markup. Declarations are passed over. The cut of a piece does not depend on the elements that are
open around it.

A text ends where a tag, a comment or a declaration may start. An interpolation marker is jumped
over as a whole, since an expression in it may hold a `<`.

As in the reading of tokens, a reader says where it stopped by what it leaves unread; offsets are
the bytes of the whole source less the bytes still unread.
-/

namespace Stencil.Markup

/-- A piece of a template. -/
inductive Piece
  | text (value : List Char) (span : Span)
  | comment (value : List Char) (span : Span)
  | startTag (name : String) (attributes : List Attribute) (span : Span)
  | endTag (name : String) (span : Span)
  /-- An element that is complete in itself. -/
  | element (node : Node)
  | problem (error : MarkupError)
  deriving Repr

/-- The text without the blanks at its front. -/
def skipBlanks (cs : List Char) : List Char := cs.dropWhile Text.isBlank

/-- What follows the next `>`, or the end. -/
def afterTag (cs : List Char) : List Char :=
  match Text.cutAtChar '>' cs with
  | some (_, rest) => rest
  | none => []

theorem afterTag_suffix (cs : List Char) : afterTag cs <:+ cs := by
  unfold afterTag Text.cutAtChar
  split
  · next h => exact ⟨_, (Text.eq_of_cutAt h).symm⟩
  · exact List.nil_suffix

/-! ## Texts -/

/-- The number of characters of the interpolation marker at the front of the text. -/
def markerLength? : List Char → Option Nat
  | '\x7b' :: '\x7b' :: cs => (Text.cutAt ['\x7d', '\x7d'] cs).map fun (inner, _) => inner.length + 4
  | _ => none

/-- Whether a tag, a comment or a declaration may start here. -/
def mayStartMarkup : List Char → Bool
  | '<' :: c :: _ => Text.isLetter c || c == '/' || c == '!' || c == '?'
  | _ => false

/-- Cuts off a text. Its first `skip` characters are taken without looking, and so is its very first
one, of which `first` reminds. -/
def cutText : (skip : Nat) → (first : Bool) → List Char → List Char × List Char
  | _, _, [] => ([], [])
  | skip + 1, _, c :: cs =>
    let (value, rest) := cutText skip false cs
    (c :: value, rest)
  | 0, first, c :: cs =>
    match markerLength? (c :: cs) with
    | some length =>
      let (value, rest) := cutText (length - 1) false cs
      (c :: value, rest)
    | none =>
      if !first && mayStartMarkup (c :: cs) then ([], c :: cs)
      else
        let (value, rest) := cutText 0 false cs
        (c :: value, rest)

/-- Nothing of the source is lost. -/
theorem cutText_append (skip : Nat) (first : Bool) (cs : List Char) :
    (cutText skip first cs).1 ++ (cutText skip first cs).2 = cs := by
  fun_induction cutText skip first cs <;> simp_all

/-- A text takes at least one character. -/
theorem cutText_suffix (c : Char) (cs : List Char) : (cutText 0 true (c :: cs)).2 <:+ cs := by
  have key (skip : Nat) (cs : List Char) : (cutText skip false cs).2 <:+ cs :=
    ⟨_, cutText_append skip false cs⟩
  rw [cutText.eq_def]
  split
  · simp_all
  · simp_all
  · next h =>
    obtain ⟨rfl, rfl⟩ := List.cons.inj h
    split
    · exact key _ _
    · simpa using key 0 cs

/-! ## Start tags -/

/-- Cuts off an attribute name. Blanks and the signs of a tag end it. -/
def cutName (cs : List Char) : List Char × List Char :=
  (cs.takeWhile fun c => !Text.endsAttributeName c, cs.dropWhile fun c => !Text.endsAttributeName c)

/-- An attribute that was read: what is wrong with it, and what follows. -/
structure ReadAttribute where
  found : Attribute
  errors : List MarkupError
  rest : List Char

/-- The offset where the text `cs` starts, the end of a source of `size` bytes. -/
def offsetOf (size : Nat) (cs : List Char) : Nat := size - Text.byteSize cs

/-- The span between two ends of a source of `size` bytes. -/
def spanBetween (size : Nat) (start stop : List Char) : Span :=
  ⟨offsetOf size start, offsetOf size stop⟩

/-- An attribute without a value. -/
def bareAttribute (size : Nat) (name start rest : List Char) : ReadAttribute :=
  { found := ⟨String.ofList name, "", spanBetween size start rest, none, none⟩
    errors := []
    rest }

/-- The value behind the equals sign: the value as written, its quote, what follows the value, and
what follows its closing quote. The latter is missing for a value that nothing closes. -/
def cutValue (cs : List Char) : List Char × Option Char × List Char × Option (List Char) :=
  match cs with
  | [] => ([], none, [], some [])
  | q :: rest =>
    if Text.isQuote q then
      match Text.cutAtChar q rest with
      | some (value, behind) => (value, some q, q :: behind, some behind)
      | none => (rest, some q, [], none)
    else
      let inValue (c : Char) : Bool := !Text.isBlank c && c != '>'
      (cs.takeWhile inValue, none, cs.dropWhile inValue, some (cs.dropWhile inValue))

/-- The attribute with a value; `cs` is what follows its equals sign and `start` where its name
starts. -/
def valuedAttribute (size : Nat) (name start cs : List Char) : ReadAttribute :=
  let cs := skipBlanks cs
  let (value, quote, valueRest, behind) := cutValue cs
  let valueStart := match quote with
    | some _ => cs.drop 1
    | none => cs
  let rest := behind.getD []
  { found :=
      { name := String.ofList name
        value := String.ofList (decodeReferences value)
        span := spanBetween size start rest
        valueSpan := some (spanBetween size valueStart valueRest)
        quote }
    errors := match behind with
      | some _ => []
      | none => [⟨.unterminatedValue (String.ofList name), spanBetween size start []⟩]
    rest }

/-- The attribute at the front of the text, if a name stands there. Blanks before an equals sign
belong to the attribute only if there is an equals sign. -/
def attribute? (size : Nat) (cs : List Char) : Option ReadAttribute :=
  match cutName cs with
  | ([], _) => none
  | (name, behind) =>
    match skipBlanks behind with
    | '=' :: rest => some (valuedAttribute size name cs rest)
    | _ => some (bareAttribute size name cs behind)

theorem cutValue_suffix (cs : List Char) : (cutValue cs).2.2.2.getD [] <:+ cs := by
  cases cs with
  | nil => exact List.suffix_refl _
  | cons q rest =>
    simp only [cutValue]
    split
    · cases h : Text.cutAtChar q rest with
      | none => exact List.nil_suffix
      | some r =>
        refine List.IsSuffix.trans ?_ (List.suffix_cons _ _)
        exact ⟨_, (Text.eq_of_cutAt h).symm⟩
    · exact List.dropWhile_suffix _

theorem skipBlanks_suffix (cs : List Char) : skipBlanks cs <:+ cs := List.dropWhile_suffix _

/-- An attribute takes at least one character, and a whole piece of the text. -/
theorem attribute?_suffix {size : Nat} {cs : List Char} {a : ReadAttribute}
    (h : attribute? size cs = some a) : ∃ c rest, cs = c :: rest ∧ a.rest <:+ rest := by
  have hcut : (cutName cs).1 ++ (cutName cs).2 = cs := List.takeWhile_append_dropWhile
  unfold attribute? at h
  split at h
  · simp at h
  · next name behind hn hname =>
    rw [hname] at hcut
    obtain ⟨c, name, rfl⟩ := List.exists_cons_of_ne_nil (fun h => hn h)
    refine ⟨c, name ++ behind, hcut.symm, ?_⟩
    refine List.IsSuffix.trans ?_ (List.suffix_append name behind)
    split at h
    · next rest hr =>
      obtain rfl := Option.some.inj h
      refine ((cutValue_suffix _).trans (skipBlanks_suffix _)).trans ?_
      exact (List.suffix_cons '=' rest).trans (hr ▸ skipBlanks_suffix behind)
    · obtain rfl := Option.some.inj h
      exact List.suffix_refl _

/-- How a start tag ends. -/
inductive TagEnd
  | closed
  | selfClosed
  | unterminated
  deriving DecidableEq, Repr

/-- The attributes of a start tag, what is wrong with them, how the tag ends and what follows. -/
structure ReadTag where
  attributes : List Attribute
  errors : List MarkupError
  tagEnd : TagEnd
  rest : List Char

/-- The result with one more attribute in front. -/
def ReadTag.push (a : ReadAttribute) (tag : ReadTag) : ReadTag :=
  { tag with attributes := a.found :: tag.attributes, errors := a.errors ++ tag.errors }

/-- Reads the attributes of a start tag and its end. A character that starts no attribute is passed
over. -/
def attributes (size : Nat) (cs : List Char) : ReadTag :=
  match hcs : skipBlanks cs with
  | [] => ⟨[], [], .unterminated, []⟩
  | '>' :: rest => ⟨[], [], .closed, rest⟩
  | '/' :: '>' :: rest => ⟨[], [], .selfClosed, rest⟩
  | c :: rest =>
    have hlen : (c :: rest).length ≤ cs.length := hcs ▸ (skipBlanks_suffix cs).length_le
    match ha : attribute? size (c :: rest) with
    | some a =>
      have : a.rest.length < cs.length := by
        obtain ⟨_, _, heq, hs⟩ := attribute?_suffix ha
        obtain ⟨rfl, rfl⟩ := List.cons.inj heq
        exact Nat.lt_of_le_of_lt hs.length_le hlen
      (attributes size a.rest).push a
    | none =>
      have : rest.length < cs.length := hlen
      attributes size rest
termination_by cs.length

theorem attributes_suffix (size : Nat) (cs : List Char) : (attributes size cs).rest <:+ cs := by
  fun_induction attributes size cs with
  | case1 => exact List.nil_suffix
  | case2 cs rest h => exact (List.suffix_cons _ _).trans (h ▸ skipBlanks_suffix cs)
  | case3 cs rest h =>
    exact ((List.suffix_cons _ _).trans (List.suffix_cons _ _)).trans (h ▸ skipBlanks_suffix cs)
  | case4 cs c rest _ _ h _ a ha _ ih =>
    obtain ⟨_, _, heq, hs⟩ := attribute?_suffix ha
    obtain ⟨rfl, rfl⟩ := List.cons.inj heq
    exact ((ih.trans hs).trans (List.suffix_cons _ _)).trans (h ▸ skipBlanks_suffix cs)
  | case5 cs c rest _ _ h _ ha _ ih =>
    exact (ih.trans (List.suffix_cons _ _)).trans (h ▸ skipBlanks_suffix cs)

/-! ## Whole pieces -/

/-- The contents that are not markup: all up to where the next end tag of the element seems to
start. -/
def rawBody (name : String) (cs : List Char) : List Char :=
  let mark := '<' :: '/' :: name.toList.map Char.toLower
  match Text.cutAt mark (cs.map Char.toLower) with
  | some (before, _) => cs.take before.length
  | none => cs

/-- What follows an element whose contents are not markup, given what follows its start tag. -/
def afterRaw (name : String) (cs : List Char) : List Char :=
  afterTag (cs.drop (rawBody name cs).length)

/-- The element whose contents are not markup. Its start tag starts at the text `start`; `cs` is what
follows that tag. -/
def rawElement (size : Nat) (name : String) (attributes : List Attribute) (start cs : List Char)
    (model : ContentModel) : Node :=
  let body := rawBody name cs
  let behind := cs.drop body.length
  let rest := afterRaw name cs
  let children :=
    if model = .rawText && !body.isEmpty then
      [Node.text (String.ofList body) (spanBetween size cs behind)]
    else []
  .element
    { name, attributes
      span := spanBetween size start rest
      startSpan := spanBetween size start cs
      endSpan := if behind.isEmpty then none else some (spanBetween size behind rest) }
    children

/-- Cuts off the start tag whose name starts the text `cs`, or the whole element. `start` is the
text from the `<` on. -/
def cutElement (size : Nat) (start cs : List Char) : List Piece × List Char :=
  let name := String.ofList (cs.takeWhile Text.isNameChar)
  let tag := attributes size (cs.dropWhile Text.isNameChar)
  let span := spanBetween size start tag.rest
  let errors := tag.errors ++ match tag.tagEnd with
    | .unterminated => [⟨.unterminatedTag name, span⟩]
    | _ => []
  let problems := errors.map Piece.problem
  if tag.tagEnd = .selfClosed || isVoid name then
    (problems ++ [.element (.element ⟨name, tag.attributes, span, span, none⟩ [])], tag.rest)
  else
    match contentModel name with
    | .markup => (problems ++ [.startTag name tag.attributes span], tag.rest)
    | model =>
      let node := rawElement size name tag.attributes start tag.rest model
      (problems ++ [.element node], afterRaw name tag.rest)

/-- Cuts off a comment; `cs` is what follows its opening. -/
def cutComment (size : Nat) (start cs : List Char) : List Piece × List Char :=
  match Text.cutAt ['-', '-', '>'] cs with
  | some (value, rest) => ([.comment value (spanBetween size start rest)], rest)
  | none =>
    let span := spanBetween size start []
    ([.problem ⟨.unterminatedComment, span⟩, .comment cs span], [])

/-- Cuts off an end tag; `cs` is what follows its `</`. -/
def cutEndTag (size : Nat) (start cs : List Char) : List Piece × List Char :=
  let rest := afterTag (cs.dropWhile Text.isNameChar)
  ([.endTag (String.ofList (cs.takeWhile Text.isNameChar)) (spanBetween size start rest)], rest)

/-- Whether the text starts with a letter. -/
def startsWithLetter : List Char → Bool
  | c :: _ => Text.isLetter c
  | [] => false

/-- Cuts off whatever stands at the front of the text `c :: cs`. A declaration leaves no piece. -/
def cutPiece (size : Nat) (c : Char) (cs : List Char) : List Piece × List Char :=
  match c, cs with
  | '<', '!' :: '-' :: '-' :: rest => cutComment size (c :: cs) rest
  | '<', '!' :: rest | '<', '?' :: rest => ([], afterTag rest)
  | c, cs =>
    if c = '<' && cs.head? = some '/' && startsWithLetter (cs.drop 1) then
      cutEndTag size (c :: cs) (cs.drop 1)
    else if c = '<' && startsWithLetter cs then cutElement size (c :: cs) cs
    else
      let (value, rest) := cutText 0 true (c :: cs)
      ([.text value (spanBetween size (c :: cs) rest)], rest)

theorem cutComment_suffix (size : Nat) (start cs : List Char) :
    (cutComment size start cs).2 <:+ cs := by
  unfold cutComment
  split
  · next h => exact ⟨_, (Text.eq_of_cutAt h).symm⟩
  · exact List.nil_suffix

theorem cutEndTag_suffix (size : Nat) (start cs : List Char) :
    (cutEndTag size start cs).2 <:+ cs :=
  (afterTag_suffix _).trans (List.dropWhile_suffix _)

theorem afterRaw_suffix (name : String) (cs : List Char) : afterRaw name cs <:+ cs :=
  (afterTag_suffix _).trans (List.drop_suffix _ _)

theorem cutElement_suffix (size : Nat) (start cs : List Char) :
    (cutElement size start cs).2 <:+ cs := by
  have key := (attributes_suffix size (cs.dropWhile Text.isNameChar)).trans
    (List.dropWhile_suffix _)
  simp only [cutElement]
  split
  · exact key
  · split
    · exact key
    · exact (afterRaw_suffix _ _).trans key

/-- A piece takes at least one character, and the cut never falls inside one. -/
theorem cutPiece_suffix (size : Nat) (c : Char) (cs : List Char) :
    (cutPiece size c cs).2 <:+ cs := by
  unfold cutPiece
  split
  · exact (cutComment_suffix ..).trans (List.suffix_append ['!', '-', '-'] _)
  · exact (afterTag_suffix _).trans (List.suffix_cons _ _)
  · exact (afterTag_suffix _).trans (List.suffix_cons _ _)
  · split
    · exact (cutEndTag_suffix ..).trans (List.drop_suffix _ _)
    · split
      · exact cutElement_suffix ..
      · exact cutText_suffix ..

/-- The pieces of the unread text of a source of `size` bytes. -/
def piecesFrom (size : Nat) (cs : List Char) : List Piece :=
  match cs with
  | [] => []
  | c :: cs =>
    have := Nat.lt_succ_of_le (cutPiece_suffix size c cs).length_le
    (cutPiece size c cs).1 ++ piecesFrom size (cutPiece size c cs).2
termination_by cs.length

/-- The pieces of a source, from left to right. -/
def pieces (source : List Char) : List Piece := piecesFrom (Text.byteSize source) source

end Stencil.Markup
