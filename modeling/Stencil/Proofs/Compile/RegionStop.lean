import Stencil.Proofs.Compile.Record
import Stencil.Proofs.Markup.Harvest
import Stencil.Proofs.Markup.TextSpan
import Stencil.Proofs.Markup.Region

/-!
# Regions and the stops of the walk

The regions of the texts are apart, and so are the markers in them. Of the stops of the walk, those at
interpolations are at the markers of the regions, one each (`rootStops_markers`); all others are at an
element, and what is reported there is reported in the start tag, apart from every text. So in a
region there is one stop, the one at its marker, or none (`Laid.filter_stops`).

Being in a region is a matter of spans: strictly between its ends (`Span.Between`). A region has two
braces at each end, so the inside of its marker is between them, and what is apart from a region is
not. The two facts are put together in `Laid.between_or_apart`, which is on the layout of the tree:
texts and start tags do not overlap in a source.

**What it does not establish.** Nothing here is about what is left at a stop, and the regions
of import elements are left out: no stop is in them, and the compiled template does not have them.
-/

namespace Stencil

open Markup (Attribute Element Node Laid)

/-! ## The texts outside of import elements -/

namespace Markup

mutual

/-- The texts at a node and below it that are in no import element. -/
def Node.keptTexts (settings : Settings) : Node → List (String × Span)
  | .text value span => [(value, span)]
  | .comment .. => []
  | .element e children => if Compile.isImport settings e then [] else keptTexts settings children

/-- The texts among the nodes and below them that are in no import element. -/
def keptTexts (settings : Settings) : List Node → List (String × Span)
  | [] => []
  | node :: nodes => node.keptTexts settings ++ keptTexts settings nodes

end

mutual

/-- The texts of a node that are in no import element are some of its texts. -/
theorem Node.keptTexts_sublist (settings : Settings) :
    (node : Node) → (node.keptTexts settings).Sublist node.texts
  | .text value span => List.Sublist.refl _
  | .comment value span => List.Sublist.refl _
  | .element e children => by
    rw [Node.keptTexts, Node.texts]
    split
    · exact List.nil_sublist _
    · exact keptTexts_sublist settings children

/-- The texts of a forest that are in no import element are some of its texts. -/
theorem keptTexts_sublist (settings : Settings) :
    (nodes : List Node) → (keptTexts settings nodes).Sublist (textsOf nodes)
  | [] => List.Sublist.refl _
  | node :: nodes => (node.keptTexts_sublist settings).append (keptTexts_sublist settings nodes)

end

/-- The regions of the texts, each with the offset where its text starts. -/
def regionsIn (texts : List (String × Span)) : List (Nat × Marker) :=
  texts.flatMap fun t => (regionsOf t.1.toList).map fun r => (t.2.start, r)

/-- The marker of a region of a text. -/
def readIn? (x : Nat × Marker) : Option (Nat × Marker) := x.2.read?.map fun m => (x.1, m)

/-- The markers of a text are those of its regions. -/
theorem map_markers (t : String × Span) :
    (markers t.1.toList).map (fun m => (t.2.start, m)) = (regionsIn [t]).filterMap readIn? := by
  rw [regionsIn, List.flatMap_singleton, List.filterMap_map, markers_eq, List.map_filterMap]
  rfl

theorem regionsIn_append (ss ts : List (String × Span)) :
    regionsIn (ss ++ ts) = regionsIn ss ++ regionsIn ts := List.flatMap_append

end Markup

/-- The interpolation at a place. -/
def Place.marker? : Place → Option (Nat × Markup.Marker)
  | .marker offset m => some (offset, m)
  | .loop .. | .value .. => none

/-- A task is at an interpolation if its place is one. -/
theorem Task.marker?_eq (task : Task) : task.marker? = task.place?.bind (·.marker?) := by
  cases task with
  | site place => cases place <;> rfl
  | _ => rfl

namespace Markup

variable {settings : Settings}

/-- The interpolations of the texts among the nodes are the markers of their regions. -/
theorem filterMap_textPlaces (nodes : List Node) :
    (textPlaces nodes).filterMap Place.marker? = (regionsIn (childTexts nodes)).filterMap readIn? := by
  unfold textPlaces
  induction childTexts nodes with
  | nil => rfl
  | cons t ts ih =>
    have hmarkers : ((markers t.1.toList).map (Place.marker t.2.start)).filterMap Place.marker? =
        (markers t.1.toList).map fun m => (t.2.start, m) := by
      rw [List.filterMap_map, ← List.filterMap_eq_map]
      rfl
    rw [List.flatMap_cons, List.filterMap_append, ih, hmarkers, map_markers, ← List.filterMap_append,
      ← regionsIn_append]
    rfl

mutual

/-- The interpolations of a node, whose texts come before its child elements. -/
theorem Node.markers_perm (node : Node) :
    ((textPlaces [node] ++ node.places settings).filterMap Place.marker?).Perm
      ((regionsIn (node.keptTexts settings)).filterMap readIn?) := by
  cases node with
  | text value span =>
    rw [Node.places, List.append_nil, filterMap_textPlaces]
    exact .refl _
  | comment value span => exact .refl _
  | element e children =>
    have hnone : textPlaces [.element e children] = [] := rfl
    rw [hnone, List.nil_append, Node.places, Node.keptTexts]
    split
    · exact .refl _
    · have hattributes (as : List Attribute) (place : Attribute → Place)
          (h : ∀ a, (place a).marker? = none) : (as.map place).filterMap Place.marker? = [] := by
        rw [List.filterMap_map]
        exact List.filterMap_eq_nil_iff.2 fun a _ => h a
      rw [Element.places, List.append_assoc, List.filterMap_append, List.filterMap_append,
        hattributes _ _ fun _ => rfl, hattributes _ _ fun _ => rfl]
      exact markers_perm children

/-- The interpolations of a forest. The texts among the nodes come before the elements, so this is up
to the order. -/
theorem markers_perm (nodes : List Node) :
    ((textPlaces nodes ++ places settings nodes).filterMap Place.marker?).Perm
      ((regionsIn (keptTexts settings nodes)).filterMap readIn?) := by
  cases nodes with
  | nil => exact .refl _
  | cons node nodes =>
    rw [textPlaces_cons, places, keptTexts, regionsIn_append]
    have hswap : (textPlaces [node] ++ textPlaces nodes ++
        (node.places settings ++ places settings nodes)).Perm
        (textPlaces [node] ++ node.places settings ++
          (textPlaces nodes ++ places settings nodes)) := by
      rw [List.append_assoc, List.append_assoc]
      exact (List.perm_append_comm_assoc _ _ _).append_left _
    have hboth := (Node.markers_perm node).append (markers_perm nodes)
    rw [← List.filterMap_append, ← List.filterMap_append] at hboth
    exact (hswap.filterMap _).trans hboth

end

/-- The interpolations that the walk stops at are the markers of the regions. -/
theorem rootStops_markers (settings : Settings) (nodes : List Node) :
    ((rootStops settings nodes).filterMap (·.task.marker?)).Perm
      ((regionsIn (keptTexts settings nodes)).filterMap readIn?) := by
  have hplaces := congrArg (List.filterMap Place.marker?) (places_rootStops settings nodes)
  rw [List.filterMap_filterMap] at hplaces
  simp only [Task.marker?_eq]
  rw [hplaces]
  exact ((rootPlaces_perm settings nodes).filterMap _).trans (markers_perm nodes)

end Markup

/-! ## Where the regions are -/

namespace Span

/-- The span lies strictly between the ends of the other one. -/
def Between (a b : Span) : Prop := b.start < a.start ∧ a.stop < b.stop

instance (a b : Span) : Decidable (Between a b) := inferInstanceAs (Decidable (_ ∧ _))

/-- What is apart from a span is not in it. -/
theorem Apart.not_between {a b : Span} (h : a.Apart b) (hproper : a.start ≤ a.stop) :
    ¬ a.Between b := by
  unfold Apart at h
  unfold Between
  omega

end Span

namespace Markup

variable {source : List Char} {texts : List (String × Span)}

/-- A region of texts is a region of one of them. -/
theorem mem_regionsIn {x : Nat × Marker} :
    x ∈ regionsIn texts ↔ ∃ t ∈ texts, x.1 = t.2.start ∧ x.2 ∈ regionsOf t.1.toList := by
  simp only [regionsIn, List.mem_flatMap, List.mem_map]
  constructor
  · rintro ⟨t, ht, r, hr, rfl⟩
    exact ⟨t, ht, rfl, hr⟩
  · rintro ⟨t, ht, hoffset, hr⟩
    exact ⟨t, ht, x.2, hr, by rw [← hoffset]⟩

/-- The regions of texts that are apart are apart. -/
theorem pairwise_regionsIn (hapart : texts.Pairwise fun s t => s.2.Apart t.2)
    (hholds : ∀ t ∈ texts, t.2.Holds source t.1.toList) :
    (regionsIn texts).Pairwise fun x y => (x.2.braces x.1).Apart (y.2.braces y.1) := by
  refine List.pairwise_flatMap.2 ⟨fun t ht => ?_, hapart.imp_of_mem fun hs ht hapart => ?_⟩
  · exact List.pairwise_map.2 (List.pairwise_map.1 (located_regions (hholds t ht)).1.2)
  · intro x hx y hy
    obtain ⟨r, hr, rfl⟩ := List.mem_map.1 hx
    obtain ⟨r', hr', rfl⟩ := List.mem_map.1 hy
    obtain ⟨hlo, hhi⟩ := (located_regions (hholds _ hs)).1.1 _ (List.mem_map_of_mem hr)
    obtain ⟨hlo', hhi'⟩ := (located_regions (hholds _ ht)).1.1 _ (List.mem_map_of_mem hr')
    exact (Span.Apart.mono hapart hlo' hhi').symm.mono hlo hhi |>.symm

/-- A marker is in its own region, and apart from all others. -/
theorem span_of_readIn? {x y : Nat × Marker} (h : readIn? x = some y) (hstart : 2 ≤ x.2.start) :
    (y.2.span y.1).Between (x.2.braces x.1) ∧
      ∀ s : Span, s.Apart (x.2.braces x.1) → (y.2.span y.1).Apart s := by
  obtain ⟨m, hm, rfl⟩ := Option.map_eq_some_iff.1 h
  obtain ⟨hlo, hhi⟩ := Marker.span_of_read? hm x.1 hstart
  refine ⟨?_, fun s hs => ?_⟩
  · unfold Span.Between
    dsimp only
    omega
  · refine (hs.mono ?_ ?_).symm
    · exact Nat.le_of_add_right_le hlo
    · exact Nat.le_of_add_right_le (Nat.le_of_eq hhi)

/-- Of all markers, the one of a region is the only one in it. -/
theorem filter_between {x : Nat × Marker} {xs : List (Nat × Marker)}
    (hapart : xs.Pairwise fun x y => (x.2.braces x.1).Apart (y.2.braces y.1))
    (hstart : ∀ x ∈ xs, 2 ≤ x.2.start) (hx : x ∈ xs) :
    (xs.filterMap readIn?).filter (fun y => (y.2.span y.1).Between (x.2.braces x.1)) =
      (readIn? x).toList := by
  obtain ⟨front, back, rfl⟩ := List.append_of_mem hx
  obtain ⟨-, hback, hfront⟩ := List.pairwise_append.1 hapart
  have hothers (ys : List (Nat × Marker)) (hys : ∀ y ∈ ys, y ∈ front ++ x :: back)
      (happart : ∀ y ∈ ys, (x.2.braces x.1).Apart (y.2.braces y.1)) :
      (ys.filterMap readIn?).filter (fun y => (y.2.span y.1).Between (x.2.braces x.1)) = [] := by
    refine List.filter_eq_nil_iff.2 fun z hz => ?_
    obtain ⟨y, hy, hread⟩ := List.mem_filterMap.1 hz
    have hspan := (span_of_readIn? hread (hstart y (hys y hy))).2 _ (happart y hy)
    simpa using hspan.not_between (Nat.le_add_right _ _)
  have hown : ((readIn? x).toList).filter (fun y => (y.2.span y.1).Between (x.2.braces x.1)) =
      (readIn? x).toList := by
    refine List.filter_eq_self.2 fun y hy => ?_
    have hread := Option.mem_toList.1 hy
    exact decide_eq_true (span_of_readIn? hread (hstart x hx)).1
  have hcons : (x :: back).filterMap readIn? = (readIn? x).toList ++ back.filterMap readIn? := by
    rw [List.filterMap_cons]
    cases readIn? x <;> rfl
  rw [List.filterMap_append, hcons, List.filter_append, List.filter_append, hown,
    hothers front (fun y hy => List.mem_append_left _ hy)
      (fun y hy => (hfront y hy x List.mem_cons_self).symm),
    hothers back (fun y hy => List.mem_append_right _ (List.mem_cons_of_mem x hy))
      (fun y hy => (List.pairwise_cons.1 hback).1 y hy)]
  exact List.append_nil _

end Markup

/-! ## The stops outside of the texts -/

/-- The task is about the start tag of the element, or about an attribute in it. -/
def Task.BelongsTo (e : Element) : Task → Prop
  | .site (.loop _ a) | .site (.value _ a) | .plain _ a => a ∈ e.attributes
  | .required d => d = e
  | .site (.marker ..) => False

namespace Markup

variable {settings : Settings} {source : List Char}

/-- A place in a text is an interpolation. -/
theorem marker?_of_mem_textPlaces {nodes : List Node} {place : Place}
    (h : place ∈ textPlaces nodes) : (Task.site place).marker?.isSome = true := by
  obtain ⟨t, -, hplace⟩ := List.mem_flatMap.1 h
  obtain ⟨m, -, rfl⟩ := List.mem_map.1 hplace
  rfl

/-- What is done at an element, other than at an interpolation, is about its start tag. -/
theorem Element.belongsTo_of_mem_tasks {e : Element} {children : List Node} {task : Task}
    (h : task ∈ e.tasks children) (hnone : task.marker? = none) : task.BelongsTo e := by
  rcases List.mem_append.1 h with h | h
  · rcases List.mem_append.1 h with h | h
    · obtain ⟨a, ha, htask⟩ := List.mem_filterMap.1 h
      unfold Attribute.task? at htask
      split at htask
      · cases htask
      · cases htask
      all_goals
        obtain rfl := Option.some.inj htask
        exact ha
    · rw [List.mem_singleton.1 h]
      rfl
  · obtain ⟨place, hplace, rfl⟩ := List.mem_map.1 h
    have hsome := marker?_of_mem_textPlaces hplace
    rw [hnone] at hsome
    cases hsome

mutual

/-- A stop at a node or below it that is at no interpolation is at an element. -/
theorem Node.exists_belongsTo {loops : List Attribute} {node : Node} {s : Stop}
    (h : s ∈ node.stops settings loops) (hnone : s.task.marker? = none) :
    ∃ e ∈ node.elements, s.task.BelongsTo e.1 := by
  cases node with
  | text value span => cases h
  | comment value span => cases h
  | element e children =>
    rw [Node.stops] at h
    split at h
    · cases h
    · rcases List.mem_append.1 h with h | h
      · obtain ⟨task, htask, rfl⟩ := List.mem_map.1 h
        refine ⟨(e, children), List.mem_cons_self, ?_⟩
        rcases List.mem_append.1 htask with hloop | htask
        · obtain ⟨a, ha, rfl⟩ := List.mem_map.1 hloop
          exact List.mem_of_find?_eq_some (Option.mem_toList.1 ha)
        · exact Element.belongsTo_of_mem_tasks htask hnone
      · obtain ⟨b, hb, hbelongs⟩ := exists_belongsTo h hnone
        exact ⟨b, List.mem_cons_of_mem _ hb, hbelongs⟩

/-- A stop in a forest that is at no interpolation is at an element. -/
theorem exists_belongsTo {loops : List Attribute} {nodes : List Node} {s : Stop}
    (h : s ∈ stops settings loops nodes) (hnone : s.task.marker? = none) :
    ∃ e ∈ elementsOf nodes, s.task.BelongsTo e.1 := by
  cases nodes with
  | nil => cases h
  | cons node nodes =>
    rw [stops] at h
    rcases List.mem_append.1 h with h | h
    · obtain ⟨b, hb, hbelongs⟩ := Node.exists_belongsTo h hnone
      exact ⟨b, List.mem_append_left _ hb, hbelongs⟩
    · obtain ⟨b, hb, hbelongs⟩ := exists_belongsTo h hnone
      exact ⟨b, List.mem_append_right _ hb, hbelongs⟩

end

/-- A stop of the walk that is at no interpolation is at an element. -/
theorem exists_belongsTo_root {nodes : List Node} {s : Stop} (h : s ∈ rootStops settings nodes)
    (hnone : s.task.marker? = none) : ∃ e ∈ elementsOf nodes, s.task.BelongsTo e.1 := by
  obtain ⟨node, hnode, h⟩ := List.mem_flatMap.1 h
  rcases List.mem_append.1 h with h | h
  · obtain ⟨place, hplace, rfl⟩ := List.mem_map.1 h
    have hsome := marker?_of_mem_textPlaces hplace
    rw [hnone] at hsome
    cases hsome
  · obtain ⟨b, hb, hbelongs⟩ := Node.exists_belongsTo h hnone
    exact ⟨b, mem_elementsOf.2 ⟨node, hnode, hb⟩, hbelongs⟩

/-- The span lies in the start tag of the element. -/
structure Element.HoldsSpan (e : Element) (span : Span) : Prop where
  le_start : e.startSpan.start ≤ span.start
  proper : span.start ≤ span.stop
  stop_le : span.stop ≤ e.startSpan.stop

/-- An attribute stands in the start tag of its element. -/
theorem Element.Tagged.attributeSpan {e : Element} {a : Attribute} (h : e.Tagged source)
    (ha : a ∈ e.attributes) : e.HoldsSpan a.span := by
  obtain ⟨hlo, hhi⟩ := h.order.mem (List.mem_map_of_mem ha)
  exact ⟨hlo, Nat.le_of_lt (h.laid a ha).cuts.proper, hhi⟩

/-- The value of an attribute stands in the start tag of its element. -/
theorem Element.Tagged.valueSpan {e : Element} {a : Attribute} (h : e.Tagged source)
    (ha : a ∈ e.attributes) : e.HoldsSpan (Compile.valueSpan a) := by
  have hspan := h.attributeSpan ha
  unfold Compile.valueSpan
  cases hvalue : a.valueSpan with
  | none => exact hspan
  | some span =>
    obtain ⟨hstart, hstop, raw, hraw, -⟩ := (h.laid a ha).valued span hvalue
    refine ⟨Nat.le_trans hspan.le_start hstart, ?_, Nat.le_trans hstop hspan.stop_le⟩
    rw [Option.getD_some, hraw.stop_eq]
    exact Nat.le_add_right _ _

/-- What is reported of an attribute is reported in the start tag of its element. -/
theorem Element.Tagged.reportedSpan {e : Element} {a : Attribute} (h : e.Tagged source)
    (kind : AttributeKind) (ha : a ∈ e.attributes) :
    e.HoldsSpan (Compile.reportedSpan kind a) := by
  unfold Compile.reportedSpan
  split
  · exact h.attributeSpan ha
  · exact h.valueSpan ha

end Markup

/-- What is reported of a task of an element is reported in its start tag. -/
theorem Task.BelongsTo.span {source : List Char} {e : Element} {task : Task} (h : task.BelongsTo e)
    (htagged : e.Tagged source) : e.HoldsSpan task.span := by
  cases task with
  | site place =>
    cases place with
    | loop d a => exact htagged.valueSpan h
    | value d a => exact htagged.reportedSpan _ h
    | marker offset m => cases h
  | plain d a => exact htagged.reportedSpan _ h
  | required d =>
    obtain rfl : d = e := h
    exact ⟨Nat.le_refl _, Nat.le_of_lt htagged.cuts.proper, Nat.le_refl _⟩

/-- What is reported of an interpolation is reported at the inside of its marker. -/
theorem Task.span_of_marker? {task : Task} {x : Nat × Markup.Marker} (h : task.marker? = some x) :
    task.span = x.2.span x.1 := by
  cases task with
  | site place =>
    cases place with
    | marker offset m =>
      obtain rfl := Option.some.inj h
      rfl
    | _ => cases h
  | _ => cases h

/-! ## What is in a region -/

namespace Markup

variable {settings : Settings} {source : List Char} {nodes : List Node} {x : Nat × Marker}

/-- The texts that are in no import element are apart from each other, and pieces of the source within
the range. -/
theorem Laid.textsKept {lo hi : Nat} (h : Laid source lo hi nodes) (settings : Settings) :
    (keptTexts settings nodes).Pairwise (fun s t => s.2.Apart t.2) ∧
      ∀ t ∈ keptTexts settings nodes, TextWithin source lo hi t :=
  ⟨h.textsApart.1.sublist (keptTexts_sublist settings nodes),
    fun t ht => h.texts t ((keptTexts_sublist settings nodes).subset ht)⟩

/-- In front of the inside of a region there are two braces. -/
theorem Laid.two_le_start {lo hi : Nat} (h : Laid source lo hi nodes) :
    ∀ x ∈ regionsIn (keptTexts settings nodes), 2 ≤ x.2.start := by
  intro x hx
  obtain ⟨t, ht, -, hr⟩ := mem_regionsIn.1 hx
  exact ((located_regions ((h.textsKept settings).2 t ht).holds).2 _ hr).1

/-- A stop is at an interpolation in the region, or what is reported there is apart from the region. -/
theorem Laid.between_or_apart {lo hi : Nat} (h : Laid source lo hi nodes) {s : Stop}
    (hs : s ∈ rootStops settings nodes) (hx : x ∈ regionsIn (keptTexts settings nodes)) :
    s.task.span.Between (x.2.braces x.1) ∧ s.task.marker?.isSome = true ∨
      s.task.span.Apart (x.2.braces x.1) ∧ ¬ s.task.span.Between (x.2.braces x.1) := by
  obtain ⟨hpairs, hwithin⟩ := h.textsKept settings
  have hapart := pairwise_regionsIn hpairs fun t ht => (hwithin t ht).holds
  -- At no interpolation, the stop is in a start tag, apart from all texts; at one, it is in the
  -- region of its marker.
  cases hmarker : s.task.marker? with
  | none =>
    obtain ⟨t, ht, hoffset, hr⟩ := mem_regionsIn.1 hx
    obtain ⟨e, he, hbelongs⟩ := exists_belongsTo_root hs hmarker
    have hspan := hbelongs.span (h.startTags e he).1
    have htext := h.textsApart.2 e he t ((keptTexts_sublist settings nodes).subset ht)
    have hregion : t.2.start ≤ (x.2.braces x.1).start ∧ (x.2.braces x.1).stop ≤ t.2.stop := by
      rw [hoffset]
      exact (located_regions (hwithin t ht).holds).1.1 _ (List.mem_map_of_mem hr)
    have hout := (htext.mono hspan.le_start hspan.stop_le).symm.mono hregion.1 hregion.2
    exact .inr ⟨hout, hout.not_between hspan.proper⟩
  | some z =>
    have hz : z ∈ (rootStops settings nodes).filterMap (·.task.marker?) :=
      List.mem_filterMap.2 ⟨s, hs, hmarker⟩
    obtain ⟨y, hy, hread⟩ := List.mem_filterMap.1 ((rootStops_markers settings nodes).mem_iff.1 hz)
    obtain ⟨hbetween, hother⟩ := span_of_readIn? hread (h.two_le_start y hy)
    rw [Task.span_of_marker? hmarker]
    by_cases heq : y = x
    · exact .inl ⟨heq ▸ hbetween, rfl⟩
    · have : Std.Symm fun x y : Nat × Marker => (x.2.braces x.1).Apart (y.2.braces y.1) :=
        ⟨fun _ _ => Span.Apart.symm⟩
      have hout := hother _ (hapart.forall hx hy (Ne.symm heq))
      exact .inr ⟨hout, hout.not_between (Nat.le_add_right _ _)⟩

/-- The stops in a region: one, at the marker of the region, or none when it has no marker. -/
theorem Laid.filter_stops {lo hi : Nat} (h : Laid source lo hi nodes)
    (hx : x ∈ regionsIn (keptTexts settings nodes)) :
    ((rootStops settings nodes).filter fun s => s.task.span.Between (x.2.braces x.1)).map
      (·.task.marker?) = (readIn? x).toList.map some := by
  obtain ⟨hpairs, hwithin⟩ := h.textsKept settings
  have hapart := pairwise_regionsIn hpairs fun t ht => (hwithin t ht).holds
  have hfilter : ((rootStops settings nodes).filter fun s =>
      s.task.span.Between (x.2.braces x.1)).filterMap (·.task.marker?) =
      ((rootStops settings nodes).filterMap (·.task.marker?)).filter fun y =>
        (y.2.span y.1).Between (x.2.braces x.1) := by
    rw [List.filterMap_filter, List.filter_filterMap]
    refine List.filterMap_congr fun s _ => ?_
    cases hmarker : s.task.marker? with
    | none => exact ite_self _
    | some z =>
      rw [Task.span_of_marker? hmarker]
      rfl
  -- The stops at interpolations are the markers up to their order; in one region there is at most
  -- one, so order is no matter.
  have hperm := (rootStops_markers settings nodes).filter
    fun y => (y.2.span y.1).Between (x.2.braces x.1)
  rw [filter_between hapart h.two_le_start hx, ← hfilter] at hperm
  have heq : ((rootStops settings nodes).filter fun s =>
      s.task.span.Between (x.2.braces x.1)).filterMap (·.task.marker?) = (readIn? x).toList := by
    cases hread : readIn? x with
    | none =>
      rw [hread] at hperm
      exact hperm.eq_nil
    | some y =>
      rw [hread] at hperm
      exact List.perm_singleton.1 hperm
  rw [← heq, List.map_filterMap, ← List.filterMap_eq_map]
  refine List.filterMap_congr fun s hs => ?_
  obtain ⟨hs, hbetween⟩ := List.mem_filter.1 hs
  rcases h.between_or_apart hs hx with ⟨-, hsome⟩ | ⟨-, hnot⟩
  · obtain ⟨z, hz⟩ := Option.isSome_iff_exists.1 hsome
    rw [Function.comp_apply, hz]
    rfl
  · exact absurd (of_decide_eq_true hbetween) hnot

end Markup

end Stencil
