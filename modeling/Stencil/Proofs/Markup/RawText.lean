import Stencil.Proofs.Markup.Revalue
import Stencil.Proofs.Text.LowerCase

/-!
# Contents that are not markup

The body of an element whose contents are not markup ends where its end tag seems to start. Markers in
such a body get new insides, and the body must not end at another place afterwards.

`rawBody_eq` says what a body is: a text that does not look like the end tag anywhere (`LacksEnd`),
with the end tag behind it or nothing. **The law** (`exists_rawBody`): with other insides in its
markers, the body is read in front of the same end tag, whatever comes behind that. New insides do not
bring about a place that seems to be the end (`LacksEnd.refill`): the front of such a place is a `<`,
which no new inside has, and no character of it is a brace, so it cannot lie across the end of a
marker either (`prefix_of_prefix_refill`).

The name of a tag has none of these characters (`IsTagName.not_mem_endMark`), and searching ignores
the case of letters, which changes none of them.

**What it does not establish.** That the body ends where it should is Proofs/Markup/RawBody; here it
only ends where it did.
-/

namespace Stencil.Markup

open Text (byteSize)

/-- Up to the next `>`, or to the end, nothing depends on what follows. -/
theorem exists_afterTag (cs : List Char) : ∃ upto, cs = upto ++ afterTag cs ∧
    ((∃ front, upto = front ++ ['>']) ∨ afterTag cs = []) ∧
    ∀ rest, (afterTag cs = [] → rest = []) → afterTag (upto ++ rest) = rest := by
  unfold afterTag
  cases h : Text.cutAtChar '>' cs with
  | none =>
    refine ⟨cs, (List.append_nil cs).symm, .inr rfl, fun rest hrest => ?_⟩
    rw [hrest rfl, List.append_nil, h]
  | some found =>
    obtain ⟨front, behind⟩ := found
    obtain ⟨rfl, hfirst⟩ := (Text.cutAt_eq_some (List.cons_ne_nil _ _)).1 h
    refine ⟨front ++ ['>'], rfl, .inl ⟨front, rfl⟩, fun rest _ => ?_⟩
    have hcut : Text.cutAtChar '>' (front ++ ['>'] ++ rest) = some (front, rest) :=
      (Text.cutAt_eq_some (List.cons_ne_nil _ _)).2 ⟨rfl, hfirst⟩
    rw [hcut]

/-- What has no `>` in it belongs to the tag. -/
theorem afterTag_append {front cs : List Char} (h : '>' ∉ front) :
    afterTag (front ++ cs) = afterTag cs := by
  have hfront : ∀ c ∈ front, c ∉ ['>'] := by
    intro c hc hin
    exact h (List.mem_singleton.1 hin ▸ hc)
  have hinfix (more : List Char) : ['>'] <:+: front ++ more ↔ ['>'] <:+: more :=
    Text.infix_append_of_disjoint (List.cons_ne_nil _ _) hfront
  unfold afterTag
  cases hcut : Text.cutAtChar '>' cs with
  | none =>
    have hnone : Text.cutAtChar '>' (front ++ cs) = none := by
      rw [Text.cutAtChar, Text.cutAt_eq_none (List.cons_ne_nil _ _), hinfix]
      exact (Text.cutAt_eq_none (List.cons_ne_nil _ _)).1 hcut
    rw [hnone]
  | some found =>
    obtain ⟨before, after⟩ := found
    obtain ⟨rfl, hfirst⟩ := (Text.cutAt_eq_some (List.cons_ne_nil _ _)).1 hcut
    have hsome : Text.cutAtChar '>' (front ++ (before ++ ['>'] ++ after)) =
        some (front ++ before, after) := by
      refine (Text.cutAt_eq_some (List.cons_ne_nil _ _)).2 ⟨by simp, ?_⟩
      rwa [List.append_assoc, hinfix]
    rw [hsome]

/-- What seems to be the end tag of an element, in lower case. -/
def endMark (name : String) : List Char := '<' :: '/' :: name.toList.map Char.toLower

/-- The text does not start to look like the end tag of the element. -/
def LacksEnd (name : String) (cs : List Char) : Prop := ¬ endMark name <:+: cs.map Char.toLower

/-- A name of a tag. -/
def IsTagName (name : String) : Prop := ∀ c ∈ name.toList, Text.isNameChar c = true

section

variable {name : String} {body behind : List Char}

/-- The mark of the end has `<`, `/` and characters of names. -/
theorem IsTagName.not_mem_endMark (h : IsTagName name) {c : Char} (hname : Text.isNameChar c = false)
    (hlower : c.isLower = false) (hc : c ≠ '<' ∧ c ≠ '/') : c ∉ endMark name := by
  intro hin
  rcases List.mem_cons.1 hin with rfl | hin
  · exact hc.1 rfl
  · rcases List.mem_cons.1 hin with rfl | hin
    · exact hc.2 rfl
    · have := h c (Text.mem_of_mem_map_toLower hin hlower)
      rw [hname] at this
      cases this

/-- Without a mark of the end, all that is left is the body. -/
theorem rawBody_of_none {cs : List Char}
    (h : Text.cutAt (endMark name) (cs.map Char.toLower) = none) : rawBody name cs = cs := by
  rw [endMark] at h
  simp only [rawBody, h]

/-- The body goes up to the first mark of the end. -/
theorem rawBody_of_some {cs before after : List Char}
    (h : Text.cutAt (endMark name) (cs.map Char.toLower) = some (before, after)) :
    rawBody name cs = cs.take before.length := by
  rw [endMark] at h
  simp only [rawBody, h]

/-- The body and what is behind it: nothing, or what seems to be the end tag. -/
theorem rawBody_cases (name : String) (cs : List Char) : ∃ body behind,
    cs = body ++ behind ∧ rawBody name cs = body ∧ LacksEnd name body ∧
      (behind = [] ∨ ∃ tag rest, behind = tag ++ rest ∧ tag.map Char.toLower = endMark name) := by
  cases hcut : Text.cutAt (endMark name) (cs.map Char.toLower) with
  | none =>
    exact ⟨cs, [], (List.append_nil cs).symm, rawBody_of_none hcut,
      (Text.cutAt_eq_none (List.cons_ne_nil _ _)).1 hcut, .inl rfl⟩
  | some found =>
    obtain ⟨before, after⟩ := found
    obtain ⟨hall, hfirst⟩ := (Text.cutAt_eq_some (List.cons_ne_nil _ _)).1 hcut
    rw [List.append_assoc] at hall
    refine ⟨cs.take before.length, cs.drop before.length, (List.take_append_drop _ _).symm,
      rawBody_of_some hcut, ?_, .inr ⟨(cs.drop before.length).take (endMark name).length,
        (cs.drop before.length).drop (endMark name).length, (List.take_append_drop _ _).symm, ?_⟩⟩
    · rw [LacksEnd, List.map_take, hall, List.take_left]
      exact fun hin => hfirst (hin.trans (List.prefix_append _ _).isInfix)
    · rw [List.map_take, List.map_drop, hall, List.drop_left]
      exact List.take_left

/-- A text is a body if it does not look like the end tag anywhere and the end tag follows it. -/
theorem rawBody_eq (hname : IsTagName name) (hbody : LacksEnd name body)
    (hbehind : behind = [] ∨ ∃ tag rest, behind = tag ++ rest ∧ tag.map Char.toLower = endMark name) :
    rawBody name (body ++ behind) = body := by
  rcases hbehind with rfl | ⟨tag, rest, rfl, htag⟩
  · have hcut : Text.cutAt (endMark name) ((body ++ []).map Char.toLower) = none := by
      rw [List.append_nil]
      exact (Text.cutAt_eq_none (List.cons_ne_nil _ _)).2 hbody
    rw [rawBody_of_none hcut, List.append_nil]
  · have hopen : '<' ∉ '/' :: name.toList.map Char.toLower := by
      intro hin
      rcases List.mem_cons.1 hin with hin | hin
      · cases hin
      · have hname := hname '<' (Text.mem_of_mem_map_toLower hin (by decide))
        revert hname
        decide
    have hcut : Text.cutAt (endMark name) ((body ++ (tag ++ rest)).map Char.toLower) =
        some (body.map Char.toLower, rest.map Char.toLower) := by
      rw [List.map_append, List.map_append, htag, ← List.append_assoc]
      exact Text.cutAt_append hopen hbody
    rw [rawBody_of_some hcut, List.length_map, List.take_left]

/-! ## Refilling a body -/

variable {fill : Span → Option (List Char)}

/-- What a refilled text starts with up to its first brace, the text starts with. -/
theorem prefix_of_prefix_refill {front : List Char} (hfront : '\x7b' ∉ front) {offset : Nat}
    {cs : List Char} (h : front <+: (refill fill offset cs).map Char.toLower) :
    front <+: cs.map Char.toLower := by
  induction offset, cs using marker_induction generalizing front with
  | nil offset => exact h
  | char offset c cs hm ih =>
    rw [refill_char hm, List.map_cons] at h
    cases front with
    | nil => exact List.nil_prefix
    | cons d front =>
      obtain ⟨rfl, htail⟩ := List.cons_prefix_cons.1 h
      exact List.cons_prefix_cons.2 ⟨rfl, ih (fun hin => hfront (List.mem_cons_of_mem _ hin)) htail⟩
  | marker offset inside rest hinside hbreak ih =>
    rw [refill_braced hinside hbreak, braced_append, List.map_cons] at h
    cases front with
    | nil => exact List.nil_prefix
    | cons d front =>
      obtain ⟨rfl, -⟩ := List.cons_prefix_cons.1 h
      exact absurd List.mem_cons_self hfront

/-- New insides without a `<` do not end the body. -/
theorem LacksEnd.refill (hfill : ∀ span t, fill span = some t → '<' ∉ t) (hname : IsTagName name)
    (h : LacksEnd name body) (offset : Nat) : LacksEnd name (refill fill offset body) := by
  have hopen : '\x7b' ∉ endMark name := hname.not_mem_endMark (by decide) (by decide) (by decide)
  have hclose : '\x7d' ∉ endMark name := hname.not_mem_endMark (by decide) (by decide) (by decide)
  induction offset, body using marker_induction with
  | nil offset => exact h
  | char offset c cs hm ih =>
    rw [refill_char hm, LacksEnd, List.map_cons, List.infix_cons_iff, not_or]
    rw [LacksEnd, List.map_cons, List.infix_cons_iff, not_or] at h
    refine ⟨fun hin => h.1 ?_, ih h.2⟩
    have hin' : endMark name <+: (Markup.refill fill offset (c :: cs)).map Char.toLower := by
      rw [refill_char hm]
      exact hin
    exact prefix_of_prefix_refill hopen hin'
  | marker offset inside rest hinside hbreak ih =>
    have hsplit (inside rest : List Char) : (braced inside ++ rest).map Char.toLower =
        ('\x7b' :: '\x7b' :: (inside ++ ['\x7d'])).map Char.toLower ++
          '\x7d' :: rest.map Char.toLower := by
      simp [braced, show Char.toLower '\x7d' = '\x7d' by decide]
    rw [LacksEnd, hsplit, Text.infix_append_cons hclose, not_or] at h
    rw [refill_braced hinside hbreak, LacksEnd, hsplit, Text.infix_append_cons hclose, not_or]
    refine ⟨?_, ih h.2⟩
    unfold newInside
    cases hnew : fill (Marker.span ⟨offset + 2, inside⟩ 0) with
    | none => exact h.1
    | some t =>
      intro hin
      have hmem : '<' ∈ '\x7b' :: '\x7b' :: (t ++ ['\x7d']) :=
        Text.mem_of_mem_map_toLower (hin.subset List.mem_cons_self) (by decide)
      simp [hfill _ t hnew] at hmem

/-- Another body is read in front of the same end tag, whatever comes behind it. -/
theorem exists_rawBody (hname : IsTagName name) (cs : List Char) : ∃ body tag,
    cs = body ++ (tag ++ afterRaw name cs) ∧ rawBody name cs = body ∧ LacksEnd name body ∧
      ∀ body' rest', LacksEnd name body' → (afterRaw name cs = [] → rest' = []) →
        rawBody name (body' ++ (tag ++ rest')) = body' ∧
          afterRaw name (body' ++ (tag ++ rest')) = rest' := by
  obtain ⟨body, behind, rfl, hbody, hlacks, hbehind⟩ := rawBody_cases name cs
  have hafter : afterRaw name (body ++ behind) = afterTag behind := by
    rw [afterRaw, hbody, List.drop_left]
  rw [hafter]
  rcases hbehind with rfl | ⟨tag, rest, rfl, htag⟩
  · refine ⟨body, [], rfl, hbody, hlacks, fun body' rest' hbody' hrest' => ?_⟩
    obtain rfl := hrest' rfl
    have heq := rawBody_eq hname hbody' (.inl rfl)
    exact ⟨heq, by rw [List.nil_append, afterRaw, heq, List.drop_left]; rfl⟩
  · have hclose : '>' ∉ tag := fun hin =>
      hname.not_mem_endMark (by decide) (by decide) (by decide)
        (htag ▸ List.mem_map_of_mem (f := Char.toLower) hin)
    obtain ⟨upto, hupto, -, hagain⟩ := exists_afterTag rest
    refine ⟨body, tag ++ upto, ?_, hbody, hlacks, fun body' rest' hbody' hrest' => ?_⟩
    · rw [afterTag_append hclose, List.append_assoc, ← hupto]
    · rw [afterTag_append hclose] at hrest'
      have heq := rawBody_eq hname hbody' (.inr ⟨tag, upto ++ rest', rfl, htag⟩)
      rw [List.append_assoc]
      refine ⟨heq, ?_⟩
      rw [afterRaw, heq, List.drop_left, afterTag_append hclose]
      exact hagain rest' hrest'

end

end Stencil.Markup
