import Stencil.Proofs.Basic
import Stencil.Proofs.Markup.Pieces
import Stencil.Proofs.Markup.RawText
import Stencil.Proofs.Markup.Refill
import Stencil.Proofs.Markup.Revalue
import Stencil.Proofs.Source.Slicing
import Stencil.Proofs.Text.LowerCase

/-!
# The scanner on offsets

The pieces of a source are cut from its unread rest, so an offset is never wrong: it is computed from
what is left. Here the same pieces are cut by a scanner that has an offset only. It adds to it the sizes
of characters, the offsets at which a search found something and the lengths of what it searched for,
and reads and slices the source at what it came to. The null character stands for the end of the source.
Every cut is checked, and every round of a loop has to get ahead; otherwise there is no result.

`Scan.pieces_eq` (Proofs/Markup/Scanned) says that there always is one, and that it is the same: the
dictionary between the two is `offsetOf`, which maps an unread rest to where it starts. For each function
of the scanner there is one lemma that says what it comes to at such an offset.

**What it does not establish.** The functions here are a second description of the scanner; that they never
fail is shown for sources, not for offsets inside of a character.
-/

namespace Stencil

open Text (byteSize isBoundary)

/-! ## Looking for something -/

namespace Text

/-- The character with `n` characters before it, or the null character if the text is shorter. -/
def charAt (n : Nat) (cs : List Char) : Char := cs.getD n '\x00'

@[simp] theorem charAt_nil (n : Nat) : charAt n [] = '\x00' := by rw [charAt, List.getD_nil]

@[simp] theorem charAt_zero_cons (c : Char) (cs : List Char) : charAt 0 (c :: cs) = c := by
  rw [charAt, List.getD_cons_zero]

@[simp] theorem charAt_succ_cons (n : Nat) (c : Char) (cs : List Char) :
    charAt (n + 1) (c :: cs) = charAt n cs := by rw [charAt, charAt, List.getD_cons_succ]

/-- The byte offset of the first occurrence of the mark. -/
def find? (mark cs : List Char) : Option Nat := (cutAt mark cs).map fun cut => byteSize cut.1

end Text

namespace Markup

namespace Scan

variable (source : List Char)

/-! ## Moving on -/

/-- The character at the offset. -/
def peek (index : Nat) : Option Char := (Text.dropBytes? index source).map (Text.charAt 0)

/-- The offset behind the character at the offset. -/
def advance (index : Nat) : Option Nat := (peek source index).map fun c => index + c.utf8Size

/-- The offset behind the characters of a class. -/
def skipWhile (p : Char → Bool) (index : Nat) : Option Nat :=
  if _ : index < byteSize source then
    match peek source index with
    | some c =>
      have := c.utf8Size_pos
      if p c then skipWhile p (index + c.utf8Size) else some index
    | none => none
  else some index
termination_by byteSize source - index

/-- The offset behind the next `>`. -/
def throughTag (index : Nat) : Option Nat := do
  let rest ← Text.dropBytes? index source
  match Text.find? ['>'] rest with
  | some offset => return index + offset + 1
  | none => return byteSize source

/-! ## Texts, comments and end tags -/

/-- Where the first closing braces are, if an interpolation marker starts the text: how far they are
behind the opening ones. -/
def closingBraces (rest : List Char) : Option (Option Nat) :=
  if ['\x7b', '\x7b'].isPrefixOf rest then (Text.dropBytes? 2 rest).map (Text.find? ['\x7d', '\x7d'])
  else some none

/-- Whether the text in front of which `rest` stands ends here, unless it has just started. -/
def endsText (rest : List Char) : Bool :=
  Text.charAt 0 rest == '<' && (Text.isLetter (Text.charAt 1 rest) || Text.charAt 1 rest == '/' ||
    Text.charAt 1 rest == '!' || Text.charAt 1 rest == '?')

/-- Where the text ends that starts at `start`. -/
def textEnd (start index : Nat) : Option Nat :=
  if _ : index < byteSize source then
    match Text.dropBytes? index source with
    | none => none
    | some rest =>
      match closingBraces rest with
      | none => none
      | some (some offset) => textEnd start (index + offset + 4)
      | some none =>
        have := (Text.charAt 0 rest).utf8Size_pos
        if start < index && endsText rest then some index
        else textEnd start (index + (Text.charAt 0 rest).utf8Size)
  else some index
termination_by byteSize source - index

/-- The text that starts at the offset. -/
def text (start : Nat) : Option (List Piece × Nat) := do
  let stop ← textEnd source start start
  if start = stop then return ([], stop)
  let value ← Text.slice? start stop source
  return ([.text value ⟨start, stop⟩], stop)

/-- The comment that starts at the offset. -/
def comment (start : Nat) : Option (List Piece × Nat) := do
  let bodyStart := start + 4
  let body ← Text.dropBytes? bodyStart source
  match Text.find? ['-', '-', '>'] body with
  | some offset =>
    let value ← Text.slice? bodyStart (bodyStart + offset) source
    let stop := bodyStart + offset + 3
    return ([.comment value ⟨start, stop⟩], stop)
  | none =>
    let stop := byteSize source
    let value ← Text.slice? bodyStart stop source
    return ([.problem ⟨.unterminatedComment, ⟨start, max stop start⟩⟩, .comment value ⟨start, stop⟩],
      stop)

/-- The name of a tag, and where it ends. -/
def tagName (start : Nat) : Option (String × Nat) := do
  let stop ← skipWhile source Text.isNameChar start
  let name ← Text.slice? start stop source
  return (String.ofList name, stop)

/-- The end tag that starts at the offset. -/
def endTag (start : Nat) : Option (List Piece × Nat) := do
  let slash ← advance source start
  let nameStart ← advance source slash
  let (name, nameStop) ← tagName source nameStart
  let stop ← throughTag source nameStop
  return ([.endTag name ⟨start, stop⟩], stop)

/-! ## Start tags -/

/-- Where the value of an attribute is, its quote, whether something closes it, and where it ends with
its quotes. -/
structure Value where
  span : Span
  quote : Option Char
  closed : Bool
  stop : Nat

/-- The value that starts at the offset. -/
def value (index : Nat) : Option Value := do
  let q ← peek source index
  if Text.isQuote q then
    let start ← advance source index
    let rest ← Text.dropBytes? start source
    match Text.find? [q] rest with
    | some offset =>
      let stop ← advance source (start + offset)
      return ⟨⟨start, start + offset⟩, some q, true, stop⟩
    | none => return ⟨⟨start, byteSize source⟩, some q, false, byteSize source⟩
  else
    let stop ← skipWhile source (fun c => !Text.isBlank c && c != '>') index
    return ⟨⟨index, stop⟩, none, true, stop⟩

/-- An attribute, what is wrong with it, and where it ends. -/
structure FoundAttribute where
  found : Attribute
  errors : List MarkupError
  stop : Nat

/-- The attribute that starts at the offset, if there is one. -/
def attributeAt (start : Nat) : Option (Option FoundAttribute) := do
  let nameStop ← skipWhile source (fun c => !Text.endsAttributeName c) start
  if nameStop = start then return none
  let name ← Text.slice? start nameStop source
  let sign ← skipWhile source Text.isBlank nameStop
  if (← peek source sign) == '=' then
    let behind ← advance source sign
    let v ← value source (← skipWhile source Text.isBlank behind)
    let raw ← Text.slice? v.span.start v.span.stop source
    let found : Attribute :=
      { name := String.ofList name
        value := String.ofList (decodeReferences raw)
        span := ⟨start, v.stop⟩
        valueSpan := some v.span
        quote := v.quote }
    let error : MarkupError :=
      ⟨.unterminatedValue (String.ofList name), ⟨start, max (byteSize source) start⟩⟩
    return some ⟨found, if v.closed then [] else [error], v.stop⟩
  else
    return some ⟨⟨String.ofList name, "", ⟨start, nameStop⟩, none, none⟩, [], nameStop⟩

/-- What a round of the loop over a start tag comes to: the tag ends, or an attribute, or nothing but a
stray character, was read. -/
inductive Round
  | ended (tagEnd : TagEnd) (stop : Nat)
  | found (a : FoundAttribute)
  | stray (stop : Nat)

/-- The offset that a round leaves. -/
def Round.stop : Round → Nat
  | ended _ stop | stray stop => stop
  | found a => a.stop

/-- One round of that loop. -/
def tagRound (index : Nat) : Option Round := do
  let index ← skipWhile source Text.isBlank index
  if index < byteSize source then
    let rest ← Text.dropBytes? index source
    if Text.charAt 0 rest == '>' then return .ended .closed (← advance source index)
    else if Text.charAt 0 rest == '/' && Text.charAt 1 rest == '>' then
      let sign ← advance source index
      return .ended .selfClosed (← advance source sign)
    else
      match ← attributeAt source index with
      | some a => return .found a
      | none => return .stray (← advance source index)
  else return .ended .unterminated index

/-- The offset is ahead of another one and still in the source. -/
structure Ahead (index next : Nat) : Prop where
  lt : index < next
  le : next ≤ byteSize source

instance (index next : Nat) : Decidable (Ahead source index next) :=
  decidable_of_iff (index < next ∧ next ≤ byteSize source)
    ⟨fun h => ⟨h.1, h.2⟩, fun h => ⟨h.lt, h.le⟩⟩

/-- Getting ahead leaves less of the source. -/
theorem Ahead.decreases {source : List Char} {index next : Nat} (h : Ahead source index next) :
    byteSize source - next < byteSize source - index := by
  have := h.lt
  have := h.le
  omega

/-- The attributes of a start tag, what is wrong with them, how the tag ends, and where. -/
structure FoundTag where
  attributes : List Attribute
  errors : List MarkupError
  tagEnd : TagEnd
  stop : Nat

/-- The attributes and the end of a start tag. -/
def tag (index : Nat) : Option FoundTag :=
  match tagRound source index with
  | none => none
  | some (.ended tagEnd stop) => some ⟨[], [], tagEnd, stop⟩
  | some (.found a) =>
    if hahead : Ahead source index a.stop then
      have := hahead.decreases
      (tag a.stop).map fun t => { t with
        attributes := a.found :: t.attributes
        errors := a.errors ++ t.errors }
    else none
  | some (.stray stop) =>
    if hahead : Ahead source index stop then
      have := hahead.decreases
      tag stop
    else none
termination_by byteSize source - index

/-- The contents that are not markup, if they are kept: a text, unless they are empty. -/
def rawChildren (model : ContentModel) (span : Span) : Option (List Node) :=
  if model = .rawText && span.start < span.stop then
    (Text.slice? span.start span.stop source).map fun body => [.text (String.ofList body) span]
  else some []

/-- The element whose contents are not markup and start at `bodyStart`, and where it ends. The end tag
is looked for in a copy of the source in lower case. -/
def rawElement (name : String) (attributes : List Attribute) (start bodyStart : Nat)
    (model : ContentModel) : Option (Node × Nat) := do
  let rest ← Text.dropBytes? bodyStart source
  let found := Text.find? (endMark name) (rest.map Char.toLower)
  let bodyStop := (found.map (bodyStart + ·)).getD (byteSize source)
  let children ← rawChildren source model ⟨bodyStart, bodyStop⟩
  if bodyStop < byteSize source then
    let stop ← throughTag source bodyStop
    return (.element ⟨name, attributes, ⟨start, stop⟩, ⟨start, bodyStart⟩, some ⟨bodyStop, stop⟩⟩
      children, stop)
  else
    return (.element ⟨name, attributes, ⟨start, bodyStop⟩, ⟨start, bodyStart⟩, none⟩ children,
      bodyStop)

/-- The start tag that starts at the offset, or the whole element. -/
def startTag (start : Nat) : Option (List Piece × Nat) := do
  let nameStart ← advance source start
  let (name, nameStop) ← tagName source nameStart
  let t ← tag source nameStop
  let span : Span := ⟨start, t.stop⟩
  let unterminated : List MarkupError := match t.tagEnd with
    | .unterminated => [⟨.unterminatedTag name, ⟨start, max t.stop start⟩⟩]
    | _ => []
  let problems := (t.errors ++ unterminated).map Piece.problem
  if t.tagEnd = .selfClosed || isVoid name then
    return (problems ++ [.element (.element ⟨name, t.attributes, span, span, none⟩ [])], t.stop)
  else
    match contentModel name with
    | .markup => return (problems ++ [.startTag name t.attributes span], t.stop)
    | model =>
      let (node, stop) ← rawElement source name t.attributes start t.stop model
      return (problems ++ [.element node], stop)

/-! ## All pieces -/

/-- The pieces that one step of the scanner cuts off at the offset, and where it goes on. -/
def step (index : Nat) : Option (List Piece × Nat) := do
  let rest ← Text.dropBytes? index source
  if ['<', '!', '-', '-'].isPrefixOf rest then comment source index
  else if ['<', '/'].isPrefixOf rest && Text.isLetter (Text.charAt 2 rest) then endTag source index
  else if Text.charAt 0 rest == '<' && (Text.charAt 1 rest == '!' || Text.charAt 1 rest == '?') then
    return ([], ← throughTag source index)
  else if Text.charAt 0 rest == '<' && Text.isLetter (Text.charAt 1 rest) then startTag source index
  else text source index

/-- The pieces from the offset on. -/
def piecesFrom (index : Nat) : Option (List Piece) :=
  if index < byteSize source then
    match step source index with
    | none => none
    | some (ps, next) =>
      if hahead : Ahead source index next then
        have := hahead.decreases
        (piecesFrom next).map (ps ++ ·)
      else none
  else some []
termination_by byteSize source - index

/-- The pieces of the source. -/
def pieces : Option (List Piece) := piecesFrom source 0

end Scan

end Markup

end Stencil
