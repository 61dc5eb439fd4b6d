import Mathlib.Tactic.MkIffOfInductiveProp
import Stencil.Proofs.Markup.Recut

/-!
# Written markup

A forest as it is written (`Written`): what it holds, and how its tags are spelled. `write` is its
text, `outline` the tree it should be read as, and `Legible` says which forests can be written: names
are names, a value fits its quotes, a text has no `<` and no opening braces and does not stand behind
another one, an element without an end tag is void or closes itself. Being legible can be decided, so
examples can be run.

Each part is written as text, and the scanner cuts that part off again, whatever comes behind it. A
part needs to know of what follows no more than where it ends itself: an attribute without a value,
that no equals sign follows (`EndsAttribute`); a text, that markup follows or nothing (`EndsText`).
There is one lemma for each part: `WrittenAttribute.Legible.read`, `attributes_written`,
`WrittenTag.Legible.piecesFrom_complete`, `piecesFrom_startTag`, `piecesFrom_endTag`,
`piecesFrom_comment`, `piecesFrom_text`.

**What it does not establish.** What the pieces give together is Proofs/Markup/RoundTrip. Elements
whose contents are not markup are not written here.
-/

namespace Stencil.Markup

/-! ## Forests as they are written -/

/-- An attribute in a start tag. -/
structure WrittenAttribute where
  /-- The blanks in front of the name. -/
  gap : List Char
  name : List Char
  /-- The quote around the value and the value as it is written. -/
  value? : Option (Char × List Char)

/-- A start tag. -/
structure WrittenTag where
  name : List Char
  attributes : List WrittenAttribute
  /-- The blanks in front of the end of the tag. -/
  gap : List Char

/-- A node. -/
inductive Written
  | text (value : List Char)
  | comment (value : List Char)
  /-- An element that is complete with its start tag, and so has no children. -/
  | complete (tag : WrittenTag) (selfClosed : Bool)
  /-- An element with an end tag, in which its name may be written in another case. -/
  | element (tag : WrittenTag) (children : List Written) (endName : List Char)

/-! ### As text -/

/-- The equals sign and the value in its quotes. -/
def writeValue : Option (Char × List Char) → List Char
  | none => []
  | some (quote, raw) => '=' :: quote :: (raw ++ [quote])

/-- The attribute with the blanks in front of it. -/
def WrittenAttribute.write (a : WrittenAttribute) : List Char :=
  a.gap ++ (a.name ++ writeValue a.value?)

/-- What ends a start tag. -/
def tagStop (selfClosed : Bool) : List Char := if selfClosed then ['/', '>'] else ['>']

/-- The start tag behind its name. -/
def WrittenTag.behindName (tag : WrittenTag) (selfClosed : Bool) : List Char :=
  tag.attributes.flatMap (·.write) ++ (tag.gap ++ tagStop selfClosed)

/-- The start tag from its name on. -/
def WrittenTag.write (tag : WrittenTag) (selfClosed : Bool) : List Char :=
  tag.name ++ tag.behindName selfClosed

mutual

/-- The node as markup. -/
def Written.write : Written → List Char
  | .text value => value
  | .comment value => '<' :: '!' :: '-' :: '-' :: (value ++ ['-', '-', '>'])
  | .complete tag selfClosed => '<' :: tag.write selfClosed
  | .element tag children endName =>
    '<' :: (tag.write false ++ (writeAll children ++ '<' :: '/' :: (endName ++ ['>'])))

/-- The nodes as markup, one after the other. -/
def writeAll : List Written → List Char
  | [] => []
  | node :: nodes => node.write ++ writeAll nodes

end

/-! ### As a tree without spans -/

/-- The outline of an attribute. In its value, references are replaced. -/
def WrittenAttribute.outline (a : WrittenAttribute) : AttributeOutline where
  name := String.ofList a.name
  quote := a.value?.map (·.1)
  value? := a.value?.map fun value => String.ofList (decodeReferences value.2)

mutual

/-- The outline of a node. -/
def Written.outline : Written → Outline
  | .text value => .text (String.ofList value)
  | .comment value => .comment (String.ofList value)
  | .complete tag _ => .element (String.ofList tag.name) (tag.attributes.map (·.outline)) []
  | .element tag children _ =>
    .element (String.ofList tag.name) (tag.attributes.map (·.outline)) (outlineAll children)

/-- The outlines of the nodes. -/
def outlineAll : List Written → List Outline
  | [] => []
  | node :: nodes => node.outline :: outlineAll nodes

end

/-! ### What can be written -/

/-- The attribute has a name, which nothing in it ends, and its value is between quotes that are not in
it. -/
@[mk_iff]
structure WrittenAttribute.Legible (a : WrittenAttribute) : Prop where
  separated : a.gap ≠ []
  blank : ∀ c ∈ a.gap, Text.isBlank c = true
  named : a.name ≠ []
  name : ∀ c ∈ a.name, Text.endsAttributeName c = false
  quoted : ∀ value ∈ a.value?, Text.isQuote value.1 = true ∧ value.1 ∉ value.2

/-- The names, in lower case, of the elements whose contents are not markup. -/
def unparsedElements : List String := ["script", "style", "textarea", "title"]

/-- The name of the tag starts with a letter, and is not the name of an element whose contents are not
markup. -/
@[mk_iff]
structure WrittenTag.Legible (tag : WrittenTag) : Prop where
  letter : startsWithLetter tag.name = true
  name : ∀ c ∈ tag.name, Text.isNameChar c = true
  parsed : ∀ unparsed ∈ unparsedElements,
    Text.sameIgnoringCase (String.ofList tag.name) unparsed = false
  attributes : ∀ a ∈ tag.attributes, a.Legible
  blank : ∀ c ∈ tag.gap, Text.isBlank c = true

/-- Whether the node is a text. -/
def Written.isText : Written → Bool
  | .text _ => true
  | .comment _ | .complete .. | .element .. => false

mutual

/-- A text is not empty and has neither a `<` nor opening braces in it; a comment does not end before its
end. An element that has no end tag is void or self-closed, one that has an end tag is not void. -/
def Written.Legible : Written → Prop
  | .text value => value ≠ [] ∧ '<' ∉ value ∧ ¬ ['\x7b', '\x7b'] <:+: value
  | .comment value => ¬ ['-', '-', '>'] <:+: value
  | .complete tag selfClosed =>
    tag.Legible ∧ (selfClosed = true ∨ isVoid (String.ofList tag.name) = true)
  | .element tag children endName =>
    tag.Legible ∧ isVoid (String.ofList tag.name) = false ∧
      Text.sameIgnoringCase (String.ofList tag.name) (String.ofList endName) = true ∧
      LegibleAll children

/-- All nodes can be written, and no text stands next to another one. -/
def LegibleAll : List Written → Prop
  | [] => True
  | node :: nodes =>
    node.Legible ∧ (node.isText = true → ∀ next ∈ nodes.head?, next.isText = false) ∧ LegibleAll nodes

end

/-- Decides whether the characters of a text are of a class, by a search of the text and not of all
characters that there are. -/
def decideClass (cs : List Char) (p : Char → Bool) (b : Bool) : Decidable (∀ c ∈ cs, p c = b) :=
  List.decidableBAll _ cs

instance : DecidablePred WrittenAttribute.Legible := fun a =>
  haveI := decideClass
  decidable_of_iff' _ (WrittenAttribute.legible_iff a)

instance : DecidablePred WrittenTag.Legible := fun tag =>
  haveI := decideClass
  decidable_of_iff' _ (WrittenTag.legible_iff tag)

mutual

/-- Decides whether a node can be written. -/
def Written.decideLegible : (node : Written) → Decidable node.Legible
  | .text value =>
    inferInstanceAs (Decidable (value ≠ [] ∧ '<' ∉ value ∧ ¬ ['\x7b', '\x7b'] <:+: value))
  | .comment value => inferInstanceAs (Decidable (¬ ['-', '-', '>'] <:+: value))
  | .complete tag selfClosed => inferInstanceAs (Decidable
      (tag.Legible ∧ (selfClosed = true ∨ isVoid (String.ofList tag.name) = true)))
  | .element tag children endName =>
    haveI := decideLegibleAll children
    inferInstanceAs (Decidable (tag.Legible ∧ isVoid (String.ofList tag.name) = false ∧
      Text.sameIgnoringCase (String.ofList tag.name) (String.ofList endName) = true ∧
      LegibleAll children))

/-- Decides whether nodes can be written. -/
def decideLegibleAll : (nodes : List Written) → Decidable (LegibleAll nodes)
  | [] => .isTrue trivial
  | node :: nodes =>
    haveI := node.decideLegible
    haveI := decideLegibleAll nodes
    inferInstanceAs (Decidable (node.Legible ∧
      (node.isText = true → ∀ next ∈ nodes.head?, next.isText = false) ∧ LegibleAll nodes))

end

instance : DecidablePred LegibleAll := decideLegibleAll

/-! ## Attributes -/

/-- An attribute may end in front of the text: no equals sign follows, and nothing that would continue its
name. -/
structure EndsAttribute (rest : List Char) : Prop where
  ends : ∀ c, rest.head? = some c → Text.endsAttributeName c = true
  noValue : (skipBlanks rest).head? ≠ some '='

section

variable {a : WrittenAttribute} {rest : List Char}

/-- Blanks, and a character that is neither blank nor an equals sign. -/
theorem endsAttribute_gap {gap : List Char} {c : Char} (hgap : ∀ d ∈ gap, Text.isBlank d = true)
    (hc : Text.isBlank c = false ∧ c ≠ '=') (hends : gap = [] → Text.endsAttributeName c = true) :
    EndsAttribute (gap ++ c :: rest) := by
  refine ⟨?_, ?_⟩
  · cases gap with
    | nil =>
      rintro _ ⟨⟩
      exact hends rfl
    | cons d gap =>
      rintro _ ⟨⟩
      simp [Text.endsAttributeName, hgap d List.mem_cons_self]
  · rw [skipBlanks_append hgap (by rintro _ ⟨⟩; exact hc.1)]
    simpa using hc.2

/-- The first character of the name of an attribute. -/
theorem WrittenAttribute.Legible.exists_name (h : a.Legible) :
    ∃ c name, a.name = c :: name ∧ Text.isBlank c = false ∧ c ≠ '=' := by
  obtain ⟨c, name, hname⟩ := List.exists_cons_of_ne_nil h.named
  have hc := h.name c (hname ▸ List.mem_cons_self)
  refine ⟨c, name, hname, isBlank_of_name (by simp [hc]), ?_⟩
  rintro rfl
  cases hc

/-- The name of an attribute is cut off in front of what ends it. -/
theorem WrittenAttribute.Legible.nameCut (h : a.Legible) {behind : List Char}
    (hbehind : ∀ c, behind.head? = some c → Text.endsAttributeName c = true) :
    NameCut a.name behind :=
  ⟨h.named, fun c hc => by simp [h.name c hc], fun c hc => by simp [hbehind c hc]⟩

/-- The attribute is read. -/
theorem WrittenAttribute.Legible.read (size : Nat) (h : a.Legible) (hrest : EndsAttribute rest) :
    ∃ found, attribute? size (a.name ++ (writeValue a.value? ++ rest)) = some ⟨found, [], rest⟩ ∧
      found.outline (·.value) = a.outline := by
  cases hvalue : a.value? with
  | none =>
    refine ⟨_, attribute?_bare (h.nameCut hrest.ends) hrest.noValue, ?_⟩
    simp [Attribute.outline, WrittenAttribute.outline, hvalue]
  | some value =>
    obtain ⟨quote, raw⟩ := value
    obtain ⟨hquote, hraw⟩ : Text.isQuote quote = true ∧ quote ∉ raw := h.quoted (quote, raw) hvalue
    have hblank : Text.isBlank quote = false := by
      rcases Bool.or_eq_true_iff.1 hquote with hq | hq <;> rw [beq_iff_eq.1 hq] <;> rfl
    let text := quote :: (raw ++ quote :: rest)
    have hskip : skipBlanks text = text := by simp [skipBlanks, text, hblank]
    have hvalued (start : List Char) : ∃ span valueSpan, valuedAttribute size a.name start text =
        ⟨⟨String.ofList a.name, String.ofList (decodeReferences raw), span, some valueSpan, some quote⟩,
          [], rest⟩ := by
      refine ⟨spanBetween size start rest,
        spanBetween size (raw ++ quote :: rest) (quote :: rest), ?_⟩
      simp only [valuedAttribute, hskip]
      simp only [text, cutValue_quoted hquote hraw]
      rfl
    have htext : writeValue (some (quote, raw)) ++ rest = '=' :: text := by simp [writeValue, text]
    have hcut : NameCut a.name ('=' :: text) := h.nameCut (by rintro _ ⟨⟩; rfl)
    obtain ⟨span, valueSpan, hfound⟩ := hvalued (a.name ++ '=' :: text)
    rw [htext, attribute?_valued hcut rfl, hfound]
    exact ⟨_, rfl, by simp [Attribute.outline, WrittenAttribute.outline, hvalue]⟩

/-! ## Start tags -/

/-- What the attributes of a start tag are followed by. -/
theorem endsAttribute_attributes (rest : List Char) {as : List WrittenAttribute} {gap : List Char}
    (has : ∀ a ∈ as, a.Legible) (hgap : ∀ c ∈ gap, Text.isBlank c = true) (selfClosed : Bool) :
    EndsAttribute (as.flatMap (·.write) ++ (gap ++ (tagStop selfClosed ++ rest))) := by
  cases as with
  | nil =>
    cases selfClosed with
    | false => exact endsAttribute_gap hgap ⟨rfl, by decide⟩ fun _ => rfl
    | true => exact endsAttribute_gap hgap ⟨rfl, by decide⟩ fun _ => rfl
  | cons a as =>
    have ha := has a List.mem_cons_self
    obtain ⟨c, name, hname, hc⟩ := ha.exists_name
    rw [List.flatMap_cons, WrittenAttribute.write, hname, List.append_assoc, List.append_assoc,
      List.cons_append]
    exact endsAttribute_gap ha.blank hc fun hnone => absurd hnone ha.separated

/-- How a start tag ends that is written so. -/
def tagEndOf (selfClosed : Bool) : TagEnd := if selfClosed then .selfClosed else .closed

/-- The attributes of a start tag are read. -/
theorem attributes_written (size : Nat) (rest : List Char) {as : List WrittenAttribute}
    {gap : List Char} (has : ∀ a ∈ as, a.Legible) (hgap : ∀ c ∈ gap, Text.isBlank c = true)
    (selfClosed : Bool) :
    ∃ found, attributes size (as.flatMap (·.write) ++ (gap ++ (tagStop selfClosed ++ rest))) =
        ⟨found, [], tagEndOf selfClosed, rest⟩ ∧
      found.map (·.outline (·.value)) = as.map (·.outline) := by
  induction as with
  | nil =>
    refine ⟨[], ?_, rfl⟩
    have hskip : skipBlanks (gap ++ (tagStop selfClosed ++ rest)) = tagStop selfClosed ++ rest :=
      skipBlanks_append hgap (by cases selfClosed <;> rintro _ ⟨⟩ <;> rfl)
    rw [List.flatMap_nil, List.nil_append, attributes_eq, hskip]
    cases selfClosed <;> rfl
  | cons a as ih =>
    obtain ⟨ha, has⟩ := List.forall_mem_cons.1 has
    obtain ⟨found, hfound, houtlines⟩ := ih has
    obtain ⟨first, hfirst, houtline⟩ := ha.read size (endsAttribute_attributes rest has hgap selfClosed)
    refine ⟨first :: found, ?_, by rw [List.map_cons, houtline, houtlines, List.map_cons]⟩
    obtain ⟨c, name, hname, hblank, -⟩ := ha.exists_name
    rw [hname, List.cons_append] at hfirst
    rw [List.flatMap_cons, WrittenAttribute.write, hname, List.append_assoc, List.append_assoc,
      List.append_assoc, List.cons_append, attributes_push (skipBlanks_append ha.blank ?_) hfirst,
      hfound]
    · rfl
    · rintro _ ⟨⟩
      exact hblank

/-- What ends the name of an attribute ends the name of a tag. -/
theorem isNameChar_of_endsAttributeName {c : Char} (h : Text.endsAttributeName c = true) :
    Text.isNameChar c = false := by
  simp only [Text.endsAttributeName, Text.isBlank, Bool.or_eq_true, beq_iff_eq] at h
  rcases h with (((((((((rfl | rfl) | rfl) | rfl) | rfl) | rfl) | rfl) | rfl) | rfl) | rfl) | rfl <;> rfl

/-- Whether a text starts with a letter is told by which of its characters are. -/
theorem startsWithLetter_congr {cs ds : List Char} (h : cs.map Text.isLetter = ds.map Text.isLetter) :
    startsWithLetter cs = startsWithLetter ds := by
  cases cs with
  | nil => rw [List.map_eq_nil_iff.1 h.symm]
  | cons c cs =>
    obtain ⟨d, ds, rfl, hd, -⟩ := List.map_eq_cons_iff.1 h.symm
    exact hd.symm

/-- A name that a tag can have ends in front of what is not of a name. -/
theorem tagCut_of_letter {name behind : List Char} (hletter : startsWithLetter name = true)
    (hname : ∀ c ∈ name, Text.isNameChar c = true)
    (hbehind : ∀ c, behind.head? = some c → Text.isNameChar c = false) : TagCut name behind := by
  refine ⟨hname, hbehind, fun more => ?_⟩
  cases name with
  | nil => cases hletter
  | cons c name => exact hletter

namespace WrittenTag.Legible

variable {tag : WrittenTag} {selfClosed : Bool}

/-- The contents of an element that can be written are markup. -/
theorem contentModel (h : tag.Legible) : contentModel (String.ofList tag.name) = .markup := by
  have hne (unparsed : String) (hmem : unparsed ∈ unparsedElements)
      (hlower : unparsed.toList.map Char.toLower = unparsed.toList) :
      Text.lowerAscii (String.ofList tag.name) ≠ unparsed := by
    intro heq
    have hother := h.parsed unparsed hmem
    rw [Text.sameIgnoringCase, hlower, ← heq, Text.lowerAscii, String.toList_ofList,
      String.toList_ofList, beq_self_eq_true] at hother
    cases hother
  simp [Markup.contentModel, hne "script" (by decide) rfl, hne "style" (by decide) rfl,
    hne "textarea" (by decide) rfl, hne "title" (by decide) rfl]

/-- The name and the attributes of a start tag are read, without a problem. -/
theorem read (size : Nat) (rest : List Char) (h : tag.Legible) (selfClosed : Bool) :
    TagCut tag.name (tag.behindName selfClosed ++ rest) ∧
      ∃ found, Markup.attributes size (tag.behindName selfClosed ++ rest) =
          ⟨found, [], tagEndOf selfClosed, rest⟩ ∧
        found.map (·.outline (·.value)) = tag.attributes.map (·.outline) ∧
        ∀ start, tagProblems size start tag.name (tag.behindName selfClosed ++ rest) = [] := by
  obtain ⟨found, hfound, houtlines⟩ := attributes_written size rest h.attributes h.blank selfClosed
  have hends := endsAttribute_attributes rest h.attributes h.blank selfClosed
  rw [behindName, List.append_assoc, List.append_assoc]
  refine ⟨tagCut_of_letter h.letter h.name fun c hc => ?_, found, hfound, houtlines, fun start => ?_⟩
  · exact isNameChar_of_endsAttributeName (hends.ends c hc)
  · rw [tagProblems, hfound, ReadTag.reported]
    cases selfClosed <;> rfl

/-- An element that is complete with its start tag is cut off. -/
theorem piecesFrom_complete (size : Nat) (rest : List Char) (h : tag.Legible)
    (hcomplete : selfClosed = true ∨ isVoid (String.ofList tag.name) = true) : ∃ e : Element,
    piecesFrom size ('<' :: (tag.write selfClosed ++ rest)) =
        .element (.element e []) :: piecesFrom size rest ∧
      (Node.element e []).outline (·.value) (fun _ t => t) =
        (Written.complete tag selfClosed).outline := by
  obtain ⟨hcut, found, hfound, houtlines, hproblems⟩ := h.read size rest selfClosed
  have hend : (Markup.attributes size (tag.behindName selfClosed ++ rest)).tagEnd = .selfClosed ∨
      isVoid (String.ofList tag.name) = true := by
    rw [hfound]
    exact hcomplete.imp_left fun hclosed => by rw [hclosed]; rfl
  rw [piecesFrom_cons, WrittenTag.write, List.append_assoc, cutPiece_element (hcut.letter _),
    cutElement_complete _ hcut hend, hproblems, hfound]
  exact ⟨_, rfl, by simp [Node.outline, outlines, Written.outline, houtlines]⟩

/-- The start tag of an element with contents is cut off. -/
theorem piecesFrom_startTag (size : Nat) (rest : List Char) (h : tag.Legible)
    (hvoid : isVoid (String.ofList tag.name) = false) : ∃ found span,
    piecesFrom size ('<' :: (tag.write false ++ rest)) =
        .startTag (String.ofList tag.name) found span :: piecesFrom size rest ∧
      found.map (·.outline (·.value)) = tag.attributes.map (·.outline) := by
  obtain ⟨hcut, found, hfound, houtlines, hproblems⟩ := h.read size rest false
  have hend : ¬ ((Markup.attributes size (tag.behindName false ++ rest)).tagEnd = .selfClosed ∨
      isVoid (String.ofList tag.name) = true) := by
    rw [hfound, hvoid]
    exact not_or.2 ⟨nofun, Bool.false_ne_true⟩
  rw [piecesFrom_cons, WrittenTag.write, List.append_assoc, cutPiece_element (hcut.letter _),
    cutElement_markup _ hcut hend h.contentModel, hproblems, hfound]
  exact ⟨found, _, rfl, houtlines⟩

/-- The end tag is cut off, whatever the case of its letters. -/
theorem piecesFrom_endTag (size : Nat) (rest : List Char) (h : tag.Legible) {endName : List Char}
    (hname : Text.sameIgnoringCase (String.ofList tag.name) (String.ofList endName) = true) :
    ∃ span, piecesFrom size ('<' :: '/' :: (endName ++ '>' :: rest)) =
      .endTag (String.ofList endName) span :: piecesFrom size rest := by
  have hletters : tag.name.map Text.isLetter = endName.map Text.isLetter :=
    Text.map_class_eq (fun _ hc => hc) hname
  have hchars : tag.name.map Text.isNameChar = endName.map Text.isNameChar :=
    Text.map_class_eq (fun c hc => by simp [Text.isNameChar, Text.isLetter, hc]) hname
  have hletter : startsWithLetter endName = true := (startsWithLetter_congr hletters).symm.trans h.letter
  have hall : ∀ c ∈ endName, Text.isNameChar c = true := by
    intro c hc
    obtain ⟨d, hd, hdc⟩ := List.mem_map.1 (hchars ▸ List.mem_map_of_mem hc)
    rw [← hdc, h.name d hd]
  have hcut : TagCut endName ('>' :: rest) :=
    tagCut_of_letter hletter hall (by rintro _ ⟨⟩; rfl)
  rw [piecesFrom_cons, cutPiece_endTag (hcut.letter _), cutEndTag, hcut.takeWhile, hcut.dropWhile]
  exact ⟨_, rfl⟩

end WrittenTag.Legible

/-! ## Comments and texts -/

section

variable {value : List Char}

/-- A comment is cut off. -/
theorem piecesFrom_comment (size : Nat) (rest : List Char) (h : ¬ ['-', '-', '>'] <:+: value) :
    ∃ span, piecesFrom size ('<' :: '!' :: '-' :: '-' :: (value ++ ['-', '-', '>'] ++ rest)) =
      .comment value span :: piecesFrom size rest := by
  have hcut : Text.cutAt ['-', '-', '>'] (value ++ ['-', '-', '>'] ++ rest) = some (value, rest) := by
    have hlast : '>' ∉ ['-', '-'] := by decide
    exact Text.cutAt_append_concat hlast h
  rw [piecesFrom_cons, cutPiece_comment, cutComment, hcut]
  exact ⟨_, rfl⟩

/-- No more text is read: markup starts here, or the source ends. -/
def EndsText (rest : List Char) : Prop := rest = [] ∨ mayStartMarkup rest = true

/-- A text without a `<` and without opening braces is cut off where markup follows, or nothing. -/
theorem textCut_of_plain {first : Bool} (hopen : '<' ∉ value) (hbraces : ¬ ['\x7b', '\x7b'] <:+: value)
    (hrest : EndsText rest) (hfirst : first = true → value ≠ []) :
    TextCut first value rest := by
  induction value generalizing first with
  | nil =>
    obtain rfl : first = false := Bool.eq_false_iff.2 fun h => hfirst h rfl
    rcases hrest with rfl | hmarkup
    · exact .last false
    · exact .stop hmarkup
  | cons c value ih =>
    rw [List.mem_cons, not_or] at hopen
    have htail : TextCut false value rest :=
      ih hopen.2 (fun hin => hbraces (hin.trans (List.suffix_cons c value).isInfix)) nofun
    refine .char (markerLength?_eq_none.2 fun inside heq => ?_) (.inr ?_) htail
    · -- the second brace would be in the text, or where markup starts
      obtain ⟨rfl, hbehind⟩ := List.cons.inj heq
      cases value with
      | nil =>
        rcases hrest with rfl | hmarkup
        · cases hbehind
        · obtain rfl : rest = _ := hbehind
          cases hmarkup
      | cons d value =>
        obtain ⟨rfl, -⟩ := List.cons.inj hbehind
        exact absurd (List.prefix_append ['\x7b', '\x7b'] value).isInfix hbraces
    · unfold mayStartMarkup
      split
      · next heq => exact absurd (List.cons.inj heq).1.symm hopen.1
      · rfl

/-- A text is cut off. -/
theorem piecesFrom_text (size : Nat) (hne : value ≠ []) (hopen : '<' ∉ value)
    (hbraces : ¬ ['\x7b', '\x7b'] <:+: value) (hrest : EndsText rest) :
    ∃ span, piecesFrom size (value ++ rest) = .text value span :: piecesFrom size rest := by
  obtain ⟨c, text, rfl⟩ := List.exists_cons_of_ne_nil hne
  have hcut : cutText 0 true (c :: text ++ rest) = (c :: text, rest) :=
    (textCut_of_plain hopen hbraces hrest fun _ => hne).cutText_eq
  have hstart : StartsText c (text ++ rest) := fun hc => absurd (hc ▸ List.mem_cons_self) hopen
  rw [List.cons_append] at hcut ⊢
  rw [piecesFrom_cons, cutPiece_text hstart, hcut]
  exact ⟨_, rfl⟩

end

end

end Stencil.Markup
