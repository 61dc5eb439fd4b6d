import Stencil.Proofs.Markup.Layout
import Stencil.Proofs.Markup.Refill

/-!
# Regions of a text and the markers in them

The scanner jumps over a region: from two opening braces to the next two closing ones, with all that
stands between them. A marker is found by a search of its own, which does not reach over a line break;
where it fails it goes on with the next character, and that is still inside of the region.

**The law** (`markersFrom_eq`): the markers of a text are those that are found in its regions. A
region holds at most one marker, which ends where the region ends. It starts at the first two opening
braces that have no line break behind them (`unbroken?`), and where there are none the region has no
marker. There are no other markers. `Marker.isSome_read?` tells when a region has its marker: if its
own inside has no line break, or braces are opened again behind the last one.

`region_induction` is the induction over the regions of a text, and `laid_regionsFrom` says that the
regions follow each other in it, each with its braces. Inside of a region the search is followed from
the end to the front (`markersFrom_inside`).

**What it does not establish.** Whether a region without a marker should have one is not said here.
-/

namespace Stencil.Markup

open Text (byteSize)

/-! ## The regions of a text -/

/-- The inside of the region at the front of the text: what the scanner jumps over, without the braces
around it. -/
def regionInside? (cs : List Char) : Option (List Char) :=
  (markerLength? cs).map fun length => (cs.take (length - 2)).drop 2

/-- The regions of a text that starts at `offset`. The first `skip` characters belong to a region that
has been taken. -/
def regionsFrom : (offset skip : Nat) → List Char → List Marker
  | _, _, [] => []
  | offset, skip + 1, c :: cs => regionsFrom (offset + c.utf8Size) skip cs
  | offset, 0, c :: cs =>
    match regionInside? (c :: cs) with
    | some inside => ⟨offset + 2, inside⟩ :: regionsFrom (offset + c.utf8Size) (inside.length + 3) cs
    | none => regionsFrom (offset + c.utf8Size) 0 cs

/-- The regions of a text, from left to right. -/
def regionsOf (cs : List Char) : List Marker := regionsFrom 0 0 cs

/-- The span of a region with its braces, in a text that starts at `offset`. -/
def Marker.braces (r : Marker) (offset : Nat) : Span :=
  ⟨offset + r.start - 2, offset + r.start + byteSize r.inside + 2⟩

/-- A region moves with the text that it is in. -/
theorem Marker.braces_eq {r : Marker} (h : 2 ≤ r.start) (offset : Nat) :
    r.braces offset = ⟨offset + (r.braces 0).start, offset + (r.braces 0).stop⟩ := by
  simp only [Marker.braces, Span.mk.injEq]
  omega

section

variable {offset : Nat} {c : Char} {cs inside rest : List Char}

/-- A text between braces is a region. -/
theorem regionInside?_braced (h : IsInside inside) :
    regionInside? (braced inside ++ rest) = some inside := by
  have htake : (braced inside ++ rest).take (inside.length + 4 - 2) = ['\x7b', '\x7b'] ++ inside := by
    rw [braced, List.append_assoc]
    exact List.take_left' (by simp)
  rw [regionInside?, markerLength?_braced h, Option.map_some, htake]
  rfl

/-- A region is an inside between its braces, line breaks or not. -/
theorem regionInside?_eq_some : regionInside? cs = some inside ↔
    (∃ rest, cs = braced inside ++ rest) ∧ IsInside inside := by
  constructor
  · intro h
    obtain ⟨length, hlength, -⟩ := Option.map_eq_some_iff.1 h
    obtain ⟨inside', rest, rfl, hinside⟩ := exists_braced_of_markerLength? hlength
    rw [regionInside?_braced hinside] at h
    obtain rfl := Option.some.inj h
    exact ⟨⟨rest, rfl⟩, hinside⟩
  · rintro ⟨⟨rest, rfl⟩, hinside⟩
    exact regionInside?_braced hinside

/-- A marker at the front of a text is a region without a line break. -/
theorem markerInside?_eq (cs : List Char) :
    markerInside? cs = (regionInside? cs).filter fun inside => '\n' ∉ inside := by
  apply Option.ext
  intro inside
  rw [Option.filter_eq_some_iff, markerInside?_eq_some, regionInside?_eq_some, and_assoc]
  simp

/-- A character that starts no region is passed. -/
theorem regionsFrom_char (h : regionInside? (c :: cs) = none) :
    regionsFrom offset 0 (c :: cs) = regionsFrom (offset + c.utf8Size) 0 cs := by
  rw [regionsFrom, h]

/-- A region is listed and jumped over. -/
theorem regionsFrom_braced (h : IsInside inside) :
    regionsFrom offset 0 (braced inside ++ rest) =
      ⟨offset + 2, inside⟩ :: regionsFrom (offset + byteSize (braced inside)) 0 rest := by
  have hregion : regionInside? (braced inside ++ rest) = _ := regionInside?_braced h
  rw [braced_append] at hregion ⊢
  rw [regionsFrom, hregion]
  dsimp only
  rw [walk_braced regionsFrom fun _ _ _ _ => rfl]

end

/-- The induction over the regions of a text. -/
theorem region_induction {motive : Nat → List Char → Prop} (nil : ∀ offset, motive offset [])
    (char : ∀ offset c cs, regionInside? (c :: cs) = none →
      motive (offset + c.utf8Size) cs → motive offset (c :: cs))
    (region : ∀ offset inside rest, IsInside inside →
      motive (offset + byteSize (braced inside)) rest → motive offset (braced inside ++ rest))
    (offset : Nat) (cs : List Char) : motive offset cs := by
  refine braced_induction (fun _ _ h => (regionInside?_eq_some.1 h).1) nil char ?_ offset cs
  exact fun offset inside rest h => region offset inside rest (regionInside?_eq_some.1 h).2

/-! ## Where the regions are -/

/-- The regions of a text follow each other in it, and each stands there with its braces. -/
theorem laid_regionsFrom (text : List Char) (offset : Nat) (cs : List Char) :
    ∀ before, text = before ++ cs → offset = byteSize before →
      Span.InOrder offset (byteSize text) ((regionsFrom offset 0 cs).map (·.braces 0)) ∧
      ∀ r ∈ regionsFrom offset 0 cs, 2 ≤ r.start ∧ (r.braces 0).Holds text (braced r.inside) := by
  induction offset, cs using region_induction with
  | nil offset =>
    rintro before rfl rfl
    exact ⟨Nat.le_of_eq (by simp), nofun⟩
  | char offset c cs hr ih =>
    intro before htext hoffset
    obtain ⟨horder, hall⟩ := ih (before ++ [c]) (by simpa using htext) (by simp [hoffset])
    rw [regionsFrom_char hr]
    exact ⟨horder.mono (Nat.le_add_right _ _), hall⟩
  | region offset inside rest hinside ih =>
    intro before htext hoffset
    obtain ⟨horder, hall⟩ := ih (before ++ braced inside) (by simpa using htext) (by simp [hoffset])
    have hsize := byteSize_braced inside
    have hspan : Marker.braces ⟨offset + 2, inside⟩ 0 =
        ⟨offset, offset + byteSize (braced inside)⟩ := by
      simp only [Marker.braces, hsize, Span.mk.injEq]
      omega
    rw [regionsFrom_braced hinside, List.map_cons, hspan]
    refine ⟨⟨Nat.le_refl _, ?_, horder⟩, List.forall_mem_cons.2 ⟨⟨?_, ?_⟩, hall⟩⟩
    · show offset ≤ offset + byteSize (braced inside)
      omega
    · show 2 ≤ offset + 2
      omega
    · rw [hspan, hoffset]
      exact ⟨before, rest, by simpa using htext, rfl⟩

/-- Opening braces take two bytes. -/
theorem byteSize_opened (cs : List Char) :
    byteSize ('\x7b' :: '\x7b' :: cs) = byteSize cs + 2 := by
  have hopen : '\x7b'.utf8Size = 1 := rfl
  rw [Text.byteSize_cons, Text.byteSize_cons, hopen]
  omega

/-! ## The marker of a region -/

/-- What stands behind the first two opening braces that have no line break behind them. -/
def unbroken? : List Char → Option (List Char)
  | [] => none
  | '\x7b' :: '\x7b' :: cs => if '\n' ∈ cs then unbroken? ('\x7b' :: cs) else some cs
  | _ :: cs => unbroken? cs

/-- The marker that is found in a region. It ends where the region ends. -/
def Marker.read? (r : Marker) : Option Marker :=
  (unbroken? ('\x7b' :: '\x7b' :: r.inside)).map fun inside =>
    ⟨r.start + byteSize r.inside - byteSize inside, inside⟩

/-- Some opening braces of the region, its own or others between them and the closing ones, have no
line break behind them. -/
def Marker.IsRead (r : Marker) : Prop :=
  ∃ front behind, '\x7b' :: '\x7b' :: r.inside = front ++ '\x7b' :: '\x7b' :: behind ∧ '\n' ∉ behind

section

variable {cs inside rest : List Char}

/-- The induction over the characters between the opening and the closing braces of a region, of which
`unbroken?` takes one after the other. -/
theorem unbroken?_eq_some {behind : List Char} (h : unbroken? cs = some behind) :
    (∃ front, cs = front ++ '\x7b' :: '\x7b' :: behind) ∧ '\n' ∉ behind := by
  fun_induction unbroken? cs with
  | case1 => cases h
  | case2 cs hbreak ih =>
    obtain ⟨⟨front, hfront⟩, hbehind⟩ := ih h
    exact ⟨⟨'\x7b' :: front, by rw [hfront]; rfl⟩, hbehind⟩
  | case3 cs hbreak =>
    obtain rfl := Option.some.inj h
    exact ⟨⟨[], rfl⟩, hbreak⟩
  | case4 c cs hbraces ih =>
    obtain ⟨⟨front, hfront⟩, hbehind⟩ := ih h
    exact ⟨⟨c :: front, by rw [hfront]; rfl⟩, hbehind⟩

/-- Where no marker is found, a line break stands behind each pair of opening braces. -/
theorem unbroken?_eq_none (h : unbroken? cs = none) (front behind : List Char)
    (heq : cs = front ++ '\x7b' :: '\x7b' :: behind) : '\n' ∈ behind := by
  fun_induction unbroken? cs generalizing front with
  | case1 => simp at heq
  | case2 cs hbreak ih =>
    cases front with
    | nil =>
      obtain rfl : cs = behind := by simpa using heq
      exact hbreak
    | cons d front => exact ih h front (List.cons.inj heq).2
  | case3 cs hbreak => cases h
  | case4 c cs hbraces ih =>
    cases front with
    | nil =>
      obtain ⟨rfl, rfl⟩ := List.cons.inj heq
      exact absurd rfl (hbraces _ rfl)
    | cons d front => exact ih h front (List.cons.inj heq).2

/-- The markers from a point inside of a region on: the one of the region, if it starts behind that
point, and those behind the region. -/
theorem markersFrom_inside (offset : Nat) (h : IsInside cs) :
    markersFrom offset 0 (cs ++ ['\x7d', '\x7d'] ++ rest) =
      ((unbroken? cs).map fun behind =>
        (⟨offset + byteSize cs - byteSize behind, behind⟩ : Marker)).toList ++
        markersFrom (offset + byteSize cs + 2) 0 rest := by
  -- Along the inside: at each pair of opening braces a marker starts unless a line break is ahead.
  fun_induction unbroken? cs generalizing offset with
  | case1 =>
    have hclose (cs : List Char) : markerInside? ('\x7d' :: cs) = none := rfl
    exact (markersFrom_char (hclose _)).trans (markersFrom_char (hclose _))
  | case2 cs hbreak ih =>
    have hcs : IsInside ('\x7b' :: cs) := (isInside_cons.1 h).1
    have hnone : markerInside? (braced cs ++ rest) = none := by
      rw [markerInside?_eq, regionInside?_braced (isInside_cons.1 hcs).1]
      exact if_neg (by simpa using hbreak)
    rw [braced_append] at hnone
    have hsize : offset + byteSize ('\x7b' :: '\x7b' :: cs) =
        offset + '\x7b'.utf8Size + byteSize ('\x7b' :: cs) := by
      rw [Text.byteSize_cons '\x7b' ('\x7b' :: cs), Nat.add_assoc]
    rw [hsize, ← ih _ hcs]
    exact markersFrom_char hnone
  | case3 cs hbreak =>
    have hcs : IsInside cs := (isInside_cons.1 (isInside_cons.1 h).1).1
    have hmarkers : markersFrom offset 0 (braced cs ++ rest) = _ := markersFrom_braced hcs hbreak
    rw [braced_append, byteSize_braced] at hmarkers
    rw [byteSize_opened]
    refine hmarkers.trans ?_
    simp only [Option.map_some, Option.toList_some, List.singleton_append, List.cons.injEq,
      Marker.mk.injEq, and_true]
    exact ⟨by omega, rfl⟩
  | case4 c cs hbraces ih =>
    have hnone : markerInside? (c :: (cs ++ ['\x7d', '\x7d'] ++ rest)) = none := by
      rw [Option.eq_none_iff_forall_ne_some]
      intro inside hinside
      obtain ⟨⟨behind, heq⟩, -⟩ := markerInside?_eq_some.1 hinside
      rw [braced_append] at heq
      obtain ⟨rfl, hrest⟩ := List.cons.inj heq
      cases cs with
      | nil => cases hrest
      | cons d cs =>
        obtain ⟨rfl, -⟩ := List.cons.inj hrest
        exact hbraces cs rfl rfl
    rw [Text.byteSize_cons, ← Nat.add_assoc, ← ih _ (isInside_cons.1 h).1]
    exact markersFrom_char hnone

end

/-- Opening braces in front of an inside are part of an inside. -/
theorem IsInside.opened {inside : List Char} (h : IsInside inside) :
    IsInside ('\x7b' :: '\x7b' :: inside) := by
  have hopen {cs : List Char} (h : IsInside cs) : IsInside ('\x7b' :: cs) :=
    isInside_cons.2 ⟨h, by rintro ⟨⟨⟩, -⟩⟩
  exact hopen (hopen h)

/-- The markers of a text are those that are found in its regions. -/
theorem markersFrom_eq (offset : Nat) (cs : List Char) :
    markersFrom offset 0 cs = (regionsFrom offset 0 cs).filterMap Marker.read? := by
  induction offset, cs using region_induction with
  | nil offset => rfl
  | char offset c cs hr ih =>
    have hnone : markerInside? (c :: cs) = none := by rw [markerInside?_eq, hr]; rfl
    rw [markersFrom_char hnone, regionsFrom_char hr, ih]
  | region offset inside rest hinside ih =>
    have hsize : offset + byteSize ('\x7b' :: '\x7b' :: inside) + 2 =
        offset + byteSize (braced inside) := by
      rw [byteSize_braced, byteSize_opened]
      omega
    have hread : Marker.read? ⟨offset + 2, inside⟩ =
        (unbroken? ('\x7b' :: '\x7b' :: inside)).map fun behind =>
          ⟨offset + byteSize ('\x7b' :: '\x7b' :: inside) - byteSize behind, behind⟩ := by
      rw [Marker.read?, byteSize_opened, Nat.add_assoc, Nat.add_comm 2]
    have hmarkers : markersFrom offset 0 (_ ++ _ ++ rest) = _ :=
      markersFrom_inside offset hinside.opened
    rw [hsize, ih] at hmarkers
    rw [regionsFrom_braced hinside, List.filterMap_cons, hread, braced_append]
    refine hmarkers.trans ?_
    cases unbroken? ('\x7b' :: '\x7b' :: inside) <;> rfl

/-- The markers of a text are those of its regions. -/
theorem markers_eq (cs : List Char) : markers cs = (regionsOf cs).filterMap Marker.read? :=
  markersFrom_eq 0 cs

/-- A marker lies in its region, and ends where that does. -/
theorem Marker.span_of_read? {r m : Marker} (h : r.read? = some m) (offset : Nat)
    (hstart : 2 ≤ r.start) :
    (r.braces offset).start + 2 ≤ (m.span offset).start ∧
      (m.span offset).stop + 2 = (r.braces offset).stop := by
  obtain ⟨behind, hbehind, rfl⟩ := Option.map_eq_some_iff.1 h
  obtain ⟨⟨front, hfront⟩, -⟩ := unbroken?_eq_some hbehind
  have hsize := congrArg byteSize hfront
  rw [byteSize_opened, Text.byteSize_append, byteSize_opened] at hsize
  simp only [Marker.braces, Marker.span]
  omega

/-- Where a region is held, its marker is held between its own braces. -/
theorem Marker.holds_of_read? {source : List Char} {r m : Marker} {offset : Nat}
    (h : r.read? = some m) (hstart : 2 ≤ r.start)
    (hholds : (r.braces offset).Holds source (braced r.inside)) : ∃ outer : Span,
      outer.Holds source (braced m.inside) ∧ m.span offset = ⟨outer.start + 2, outer.stop - 2⟩ := by
  obtain ⟨behind, hbehind, rfl⟩ := Option.map_eq_some_iff.1 h
  obtain ⟨⟨front, hfront⟩, -⟩ := unbroken?_eq_some hbehind
  have hbraced : braced r.inside = front ++ braced behind := by
    have hsplit := congrArg (· ++ ['\x7d', '\x7d']) hfront
    simpa [braced] using hsplit
  have hsize := congrArg byteSize hfront
  rw [byteSize_opened, Text.byteSize_append, byteSize_opened] at hsize
  rw [hbraced] at hholds
  refine ⟨_, hholds.behind, ?_⟩
  simp only [Marker.braces, Marker.span, Span.mk.injEq]
  omega

/-- A region has a marker if and only if braces are open with no line break behind them. -/
theorem Marker.isSome_read? (r : Marker) : r.read?.isSome = true ↔ r.IsRead := by
  rw [Marker.read?, Option.isSome_map]
  constructor
  · intro h
    obtain ⟨behind, hbehind⟩ := Option.isSome_iff_exists.1 h
    obtain ⟨⟨front, hfront⟩, hbreak⟩ := unbroken?_eq_some hbehind
    exact ⟨front, behind, hfront, hbreak⟩
  · rintro ⟨front, behind, heq, hbreak⟩
    cases h : unbroken? ('\x7b' :: '\x7b' :: r.inside) with
    | none => exact absurd (unbroken?_eq_none h front behind heq) hbreak
    | some behind => rfl

end Stencil.Markup
