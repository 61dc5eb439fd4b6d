import Stencil.Markup.Marker
import Stencil.Proofs.Text.Search

/-!
# What a marker is

A marker is an inside between two pairs of braces, on one line. The closing pair is the first one
behind the opening pair, so an inside is a text that holds no closing pair and does not end with half
of one. `IsInside` says this of a text alone; `markerInside?_eq_some` says that the marker at the
front of a text is found if and only if the text starts with such an inside between braces and no line
feed is in it.

The markers of a text are then read off one by one, and what comes behind a marker has no part in it:
`marker_induction` is the induction over the markers of a text, with one step for a character that
starts none and one for a marker. Two walks go along a text so, the one that lists markers and the one
that fills them again, and both jump over what they found; `walk_skip`, `walk_braced` and
`braced_induction` are about any walk of this kind. `markersFrom_shift` says that where a text starts
decides only where its markers are.

**What it does not establish.** A text between braces with a line feed in it is no marker, although
the scanner of regions may take it for one: the two notions are compared in Proofs/Markup/Region.
-/

namespace Stencil.Markup

open Text (byteSize)

/-- The text can stand between the braces of a marker: the closing braces put behind it are the first
ones. -/
def IsInside (inside : List Char) : Prop := ¬ ['\x7d', '\x7d'] <:+: inside ++ ['\x7d']

/-- An inside may have any character in front that does not make a closing pair. -/
theorem isInside_cons {c : Char} {cs : List Char} :
    IsInside (c :: cs) ↔ IsInside cs ∧ ¬ (c = '\x7d' ∧ (cs ++ ['\x7d']).head? = some '\x7d') := by
  have hprefix : ['\x7d', '\x7d'] <+: c :: (cs ++ ['\x7d']) ↔
      c = '\x7d' ∧ (cs ++ ['\x7d']).head? = some '\x7d' := by
    cases cs <;> simp [List.cons_prefix_cons, eq_comm]
  rw [IsInside, IsInside, List.cons_append, List.infix_cons_iff, hprefix, not_or, and_comm]

/-- A text that stands between two pairs of braces. -/
def braced (inside : List Char) : List Char := ['\x7b', '\x7b'] ++ inside ++ ['\x7d', '\x7d']

/-- The braces take four bytes. -/
theorem byteSize_braced (inside : List Char) : byteSize (braced inside) = byteSize inside + 4 := by
  have hopen : byteSize ['\x7b', '\x7b'] = 2 := rfl
  have hclose : byteSize ['\x7d', '\x7d'] = 2 := rfl
  rw [braced, Text.byteSize_append, Text.byteSize_append, hopen, hclose]
  omega

/-- The opening pair is in front of the inside, the closing pair behind it. -/
theorem braced_append (inside rest : List Char) :
    braced inside ++ rest = '\x7b' :: '\x7b' :: (inside ++ ['\x7d', '\x7d'] ++ rest) := by
  simp [braced]

/-- A text is cut at its first closing pair behind an inside. -/
theorem cutAt_braces {cs inside rest : List Char} :
    Text.cutAt ['\x7d', '\x7d'] cs = some (inside, rest) ↔
      cs = inside ++ ['\x7d', '\x7d'] ++ rest ∧ IsInside inside :=
  Text.cutAt_eq_some (List.cons_ne_nil _ _)

/-- The first closing pair behind an inside is the one put there. -/
theorem IsInside.cutAt {inside : List Char} (h : IsInside inside) (rest : List Char) :
    Text.cutAt ['\x7d', '\x7d'] (inside ++ ['\x7d', '\x7d'] ++ rest) = some (inside, rest) :=
  cutAt_braces.2 ⟨rfl, h⟩

/-! ## The marker at the front of a text -/

/-- The marker at the front of a text: an inside without a line feed, between braces. -/
theorem markerInside?_eq_some {cs inside : List Char} : markerInside? cs = some inside ↔
    (∃ rest, cs = braced inside ++ rest) ∧ IsInside inside ∧ '\n' ∉ inside := by
  constructor
  · intro h
    unfold markerInside? at h
    split at h
    · split at h
      · next rest hcut =>
        split at h
        · cases h
        · next hbreak =>
          obtain rfl := Option.some.inj h
          obtain ⟨rfl, hinside⟩ := cutAt_braces.1 hcut
          exact ⟨⟨rest, (braced_append _ _).symm⟩, hinside, by simpa using hbreak⟩
      · cases h
    · cases h
  · rintro ⟨⟨rest, rfl⟩, hinside, hbreak⟩
    rw [braced_append, markerInside?, hinside.cutAt]
    exact if_neg (by simpa using hbreak)

/-- The front of a text is no marker, however the text goes on, when a marker that is jumped over
cannot start there. -/
theorem markerInside?_eq_none {cs front : List Char} (h : front <+: cs)
    (hclose : ∀ rest, cs = '\x7b' :: '\x7b' :: rest → ¬ ['\x7d', '\x7d'] <:+: rest) :
    markerInside? front = none := by
  cases hm : markerInside? front with
  | none => rfl
  | some inside =>
    obtain ⟨⟨rest, rfl⟩, -⟩ := markerInside?_eq_some.1 hm
    obtain ⟨behind, rfl⟩ := h
    rw [braced_append] at hclose
    refine absurd ?_ (hclose _ rfl)
    exact ⟨inside, rest ++ behind, by simp⟩

/-! ## Walks from one pair of braces to the next -/

section

variable {α : Type} (walk : (offset skip : Nat) → List Char → α)

/-- A walk that leaves characters out is then behind them. -/
theorem walk_skip (hskip : ∀ offset skip c cs,
      walk offset (skip + 1) (c :: cs) = walk (offset + c.utf8Size) skip cs)
    (offset : Nat) (before rest : List Char) :
    walk offset before.length (before ++ rest) = walk (offset + byteSize before) 0 rest := by
  induction before generalizing offset with
  | nil => simp
  | cons c before ih =>
    rw [List.cons_append, List.length_cons, hskip, ih, Text.byteSize_cons, Nat.add_assoc]

/-- A walk that found a text between braces, and leaves out all of it behind the first brace, is then
behind the braces. -/
theorem walk_braced (hskip : ∀ offset skip c cs,
      walk offset (skip + 1) (c :: cs) = walk (offset + c.utf8Size) skip cs)
    (offset : Nat) (inside rest : List Char) :
    walk (offset + '\x7b'.utf8Size) (inside.length + 3)
        ('\x7b' :: (inside ++ ['\x7d', '\x7d'] ++ rest)) =
      walk (offset + byteSize (braced inside)) 0 rest := by
  let behind := '\x7b' :: (inside ++ ['\x7d', '\x7d'])
  have hlength : behind.length = inside.length + 3 := by simp [behind]
  have hsize : offset + byteSize (braced inside) = offset + '\x7b'.utf8Size + byteSize behind := by
    rw [Nat.add_assoc, ← Text.byteSize_cons]
    rfl
  rw [hsize, ← walk_skip walk hskip, hlength]
  rfl

/-- The induction over a text whose pieces in braces are found one after the other, each at the front of
what is left. -/
theorem braced_induction {motive : Nat → List Char → Prop} {find? : List Char → Option (List Char)}
    (hfind : ∀ cs inside, find? cs = some inside → ∃ rest, cs = braced inside ++ rest)
    (nil : ∀ offset, motive offset [])
    (char : ∀ offset c cs, find? (c :: cs) = none →
      motive (offset + c.utf8Size) cs → motive offset (c :: cs))
    (piece : ∀ offset inside rest, find? (braced inside ++ rest) = some inside →
      motive (offset + byteSize (braced inside)) rest → motive offset (braced inside ++ rest))
    (offset : Nat) (cs : List Char) : motive offset cs := by
  induction hn : cs.length using Nat.strong_induction_on generalizing offset cs with
  | _ n ih =>
    cases cs with
    | nil => exact nil offset
    | cons c cs =>
      cases hfound : find? (c :: cs) with
      | none => exact char offset c cs hfound (ih _ (by simp [← hn]) _ _ rfl)
      | some inside =>
        obtain ⟨rest, heq⟩ := hfind _ _ hfound
        rw [heq] at hn hfound ⊢
        refine piece offset inside rest hfound (ih _ ?_ _ _ rfl)
        rw [← hn, braced_append]
        simp only [List.length_cons, List.length_append]
        omega

end

/-! ## The markers of a text, one by one -/

section

variable {offset : Nat} {c : Char} {cs inside rest : List Char}

/-- The induction over the markers of a text. -/
theorem marker_induction {motive : Nat → List Char → Prop} (nil : ∀ offset, motive offset [])
    (char : ∀ offset c cs, markerInside? (c :: cs) = none →
      motive (offset + c.utf8Size) cs → motive offset (c :: cs))
    (marker : ∀ offset inside rest, IsInside inside → '\n' ∉ inside →
      motive (offset + byteSize (braced inside)) rest → motive offset (braced inside ++ rest))
    (offset : Nat) (cs : List Char) : motive offset cs := by
  refine braced_induction (fun _ _ h => (markerInside?_eq_some.1 h).1) nil char ?_ offset cs
  intro offset inside rest h
  obtain ⟨-, hinside, hbreak⟩ := markerInside?_eq_some.1 h
  exact marker offset inside rest hinside hbreak

/-- A character that starts no marker is passed. -/
theorem markersFrom_char (h : markerInside? (c :: cs) = none) :
    markersFrom offset 0 (c :: cs) = markersFrom (offset + c.utf8Size) 0 cs := by
  rw [markersFrom, h]

/-- A marker is listed and jumped over. -/
theorem markersFrom_braced (h : IsInside inside) (hbreak : '\n' ∉ inside) :
    markersFrom offset 0 (braced inside ++ rest) =
      ⟨offset + 2, inside⟩ :: markersFrom (offset + byteSize (braced inside)) 0 rest := by
  have hmarker := markerInside?_eq_some.2 ⟨⟨rest, rfl⟩, h, hbreak⟩
  rw [braced_append] at hmarker ⊢
  rw [markersFrom, hmarker]
  dsimp only
  rw [walk_braced markersFrom fun _ _ _ _ => rfl]

/-- Where a text starts decides only where its markers are. -/
theorem markersFrom_shift (start offset skip : Nat) (cs : List Char) :
    markersFrom (start + offset) skip cs =
      (markersFrom offset skip cs).map fun m => ⟨start + m.start, m.inside⟩ := by
  induction cs generalizing offset skip with
  | nil => simp [markersFrom]
  | cons c cs ih =>
    cases skip with
    | succ skip => rw [markersFrom, markersFrom, Nat.add_assoc, ih]
    | zero =>
      rw [markersFrom, markersFrom]
      cases markerInside? (c :: cs) with
      | none =>
        dsimp only
        rw [Nat.add_assoc, ih]
      | some inside =>
        dsimp only
        rw [List.map_cons, Nat.add_assoc, Nat.add_assoc, ih]

end

end Stencil.Markup
