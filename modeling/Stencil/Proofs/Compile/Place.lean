import Stencil.Proofs.Compile.Visit
import Stencil.Proofs.Markup.Pieces
import Stencil.Proofs.Markup.Region
import Stencil.Proofs.Text.LowerCase
import Mathlib.Data.List.Basic

/-!
# The spans of the places

The places of a template and its import elements are apart from each other (`Laid.spread`), and each
stands in the source as it was read (`Laid.located`). The walk does not meet them in the order of the
source: a loop definition comes before all other attributes, and the texts of an element come before
its child elements. So the argument follows the layout of the tree, which is in the order of the
source, and the order of the walk is a permutation of that (`rootPlaces_perm`).

For spans in whatever order, `Span.Spread` says that they lie in a range and are apart from each
other; it does not change under permutations, and ranges that follow each other can be put together.
Import elements may stand in one another: the outermost ones count, and the others lie in those
(`Laid.splitImports`).

**What it does not establish.** An attribute without a value has no span, and a value that is written
without quotes has the span of its text; in which of these a compile changes something is a matter of
the visits.
-/

namespace Stencil

open Text (byteSize)
open Markup (Attribute Element Node Laid)

/-! ## Spans that are spread over a range -/

/-- The spans lie between two offsets and are apart from each other, in whatever order. -/
def Span.Spread (lo hi : Nat) (ss : List Span) : Prop :=
  (∀ s ∈ ss, lo ≤ s.start ∧ s.stop ≤ hi) ∧ ss.Pairwise Span.Apart

namespace Span.Spread

variable {lo lo' mid hi hi' : Nat} {ss ts : List Span}

theorem nil : Spread lo hi [] := ⟨by simp, .nil⟩

/-- A span is spread over a range that it lies in. -/
theorem single {s : Span} (hlo : lo ≤ s.start) (hhi : s.stop ≤ hi) : Spread lo hi [s] :=
  ⟨by simpa using ⟨hlo, hhi⟩, List.pairwise_singleton _ _⟩

theorem mono (h : Spread lo hi ss) (hlo : lo' ≤ lo) (hhi : hi ≤ hi') : Spread lo' hi' ss :=
  ⟨fun s hs => ⟨Nat.le_trans hlo (h.1 s hs).1, Nat.le_trans (h.1 s hs).2 hhi⟩, h.2⟩

/-- The order of the spans does not matter. -/
theorem perm (h : Spread lo hi ss) (hp : ss.Perm ts) : Spread lo hi ts :=
  ⟨fun s hs => h.1 s (hp.mem_iff.2 hs), hp.pairwise h.2 Apart.symm⟩

theorem sublist (h : Spread lo hi ss) (hs : ts.Sublist ss) : Spread lo hi ts :=
  ⟨fun s hmem => h.1 s (hs.subset hmem), h.2.sublist hs⟩

/-- Two ranges that follow each other. -/
theorem append (hs : Spread lo mid ss) (ht : Spread mid hi ts) (hlo : lo ≤ mid) (hhi : mid ≤ hi) :
    Spread lo hi (ss ++ ts) := by
  refine ⟨?_, List.pairwise_append.2 ⟨hs.2, ht.2, fun s hs' t ht' => .inl ?_⟩⟩
  · intro s hmem
    rcases List.mem_append.1 hmem with h | h
    · exact ⟨(hs.1 s h).1, Nat.le_trans (hs.1 s h).2 hhi⟩
    · exact ⟨Nat.le_trans hlo (ht.1 s h).1, (ht.1 s h).2⟩
  · exact Nat.le_trans (hs.1 s hs').2 (ht.1 t ht').1

/-- Spans that are apart stay so when all of them are moved. -/
theorem shift (h : Spread lo hi ss) (offset : Nat) :
    Spread (offset + lo) (offset + hi) (ss.map fun s => ⟨offset + s.start, offset + s.stop⟩) := by
  refine ⟨?_, List.pairwise_map.2 (h.2.imp ?_)⟩
  · intro _ hmem
    obtain ⟨s, hs, rfl⟩ := List.mem_map.1 hmem
    obtain ⟨hlo, hhi⟩ := h.1 s hs
    exact ⟨Nat.add_le_add_left hlo _, Nat.add_le_add_left hhi _⟩
  · intro a b hapart
    unfold Apart at hapart ⊢
    dsimp only
    omega

/-- Some of the spans, each with a span that lies in it instead. -/
theorem filterMap {α β : Type} {xs : List α} {outer : α → Span} {g : α → Option β}
    {inner : β → Span} (h : Spread lo hi (xs.map outer))
    (hin : ∀ x ∈ xs, ∀ y, g x = some y →
      (outer x).start ≤ (inner y).start ∧ (inner y).stop ≤ (outer x).stop) :
    Spread lo hi ((xs.filterMap g).map inner) := by
  refine ⟨?_, List.pairwise_map.2 (List.pairwise_filterMap.2 ?_)⟩
  · intro _ hmem
    obtain ⟨y, hy, rfl⟩ := List.mem_map.1 hmem
    obtain ⟨x, hx, hxy⟩ := List.mem_filterMap.1 hy
    obtain ⟨hlo, hhi⟩ := h.1 _ (List.mem_map_of_mem hx)
    obtain ⟨hstart, hstop⟩ := hin x hx y hxy
    exact ⟨Nat.le_trans hlo hstart, Nat.le_trans hstop hhi⟩
  · refine (List.pairwise_map.1 h.2).imp_of_mem fun hx hx' hapart y hy y' hy' => ?_
    obtain ⟨hstart, hstop⟩ := hin _ hx y hy
    obtain ⟨hstart', hstop'⟩ := hin _ hx' y' hy'
    exact ((hapart.mono hstart' hstop').symm.mono hstart hstop).symm

end Span.Spread

/-- Spans that are in order are apart. -/
theorem Span.InOrder.spread {lo hi : Nat} {ss : List Span} (h : InOrder lo hi ss) :
    Spread lo hi ss := by
  induction ss generalizing lo with
  | nil => exact .nil
  | cons s ss ih =>
    obtain ⟨hlo, hproper, hrest⟩ := h
    have hfirst : Spread lo s.stop [s] := .single hlo (Nat.le_refl _)
    exact hfirst.append (ih hrest) (Nat.le_trans hlo hproper) hrest.le

/-- Spans that are in order lie in their range. -/
theorem Span.InOrder.mem {lo hi : Nat} {s : Span} {ss : List Span} (h : InOrder lo hi ss)
    (hs : s ∈ ss) : lo ≤ s.start ∧ s.stop ≤ hi := h.spread.1 s hs

/-! ## Where a place is -/

namespace Place

/-- The span of the text of a place. An attribute without a value has none. -/
def span? : Place → Option Span
  | .loop _ a | .value _ a => a.valueSpan
  | .marker offset m => some (m.span offset)

/-- The source holds at the place what the place was read from: the value of the attribute as it is
written, or the inside of the marker between its braces. -/
def Located (source : List Char) : Place → Prop
  | .loop _ a | .value _ a => ∀ span, a.valueSpan = some span →
    ∃ raw, span.Holds source raw ∧ a.value = String.ofList (Markup.decodeReferences raw)
  | .marker offset m => ∃ outer : Span,
    outer.Holds source (['\x7b', '\x7b'] ++ m.inside ++ ['\x7d', '\x7d']) ∧
      m.span offset = ⟨outer.start + 2, outer.stop - 2⟩

end Place

namespace Markup

variable {source : List Char}

/-! ## Regions and markers -/

/-- The regions of a text that the source holds are spread over it, and each stands in the source. -/
theorem located_regions {value : List Char} {span : Span} (h : span.Holds source value) :
    Span.Spread span.start span.stop ((regionsOf value).map (·.braces span.start)) ∧
      ∀ r ∈ regionsOf value, 2 ≤ r.start ∧ (r.braces span.start).Holds source (braced r.inside) := by
  obtain ⟨horder, hall⟩ := laid_regionsFrom value 0 value [] rfl rfl
  refine ⟨?_, fun r hr => ?_⟩
  · have hspans : (regionsOf value).map (·.braces span.start) =
        ((regionsOf value).map (·.braces 0)).map fun s => ⟨span.start + s.start, span.start + s.stop⟩ := by
      rw [List.map_map]
      exact List.map_congr_left fun r hr => Marker.braces_eq (hall r hr).1 _
    rw [hspans, h.stop_eq]
    exact horder.spread.shift span.start
  · obtain ⟨hstart, hholds⟩ := hall r hr
    rw [Marker.braces_eq hstart]
    exact ⟨hstart, h.shift hholds⟩

/-- The markers of a text that the source holds are located in the source, and spread over the text. -/
theorem located_markers {value : List Char} {span : Span} (h : span.Holds source value) :
    Span.Spread span.start span.stop ((markers value).map (·.span span.start)) ∧
      ∀ m ∈ markers value, (Place.marker span.start m).Located source := by
  obtain ⟨hspread, hall⟩ := located_regions h
  rw [markers_eq]
  refine ⟨hspread.filterMap fun r hr m hm => ?_, fun m hm => ?_⟩
  · obtain ⟨hstart, hstop⟩ := Marker.span_of_read? hm span.start (hall r hr).1
    omega
  · obtain ⟨r, hr, hm⟩ := List.mem_filterMap.1 hm
    obtain ⟨hstart, hholds⟩ := hall r hr
    exact Marker.holds_of_read? hm hstart hholds

/-! ## Attributes -/

/-- The values of attributes that are in order are spread over their range. -/
theorem spread_valueSpans {lo hi : Nat} {as : List Attribute}
    (horder : Span.InOrder lo hi (as.map (·.span))) (hlaid : ∀ a ∈ as, a.Laid source) :
    Span.Spread lo hi (as.filterMap (·.valueSpan)) := by
  have hspread : Span.Spread lo hi ((as.filterMap (·.valueSpan)).map id) :=
    horder.spread.filterMap fun a ha span hspan =>
      let ⟨hstart, hstop, _⟩ := (hlaid a ha).valued span hspan
      ⟨hstart, hstop⟩
  rwa [List.map_id] at hspread

/-- An attribute that is the loop definition of its element is not compiled once more. -/
theorem not_isSite_of_loop {a : Attribute}
    (h : Text.sameIgnoringCase a.name "v-for" = true) : ¬ a.isSite = true := by
  have hlower : Text.lowerString a.name = "v-for" :=
    Text.lowerString_of_sameIgnoringCase (by decide) h
  have hkind : AttributeKind.ofName a.name = .loop := by
    rw [AttributeKind.ofName, hlower]
    rfl
  simp [Attribute.isSite, hkind]

/-- The attributes of an element that are compiled, with the loop definition in front, are some of
its attributes. -/
theorem sites_sublist (e : Element) : ∃ as, as.Perm e.attributes ∧
    ((e.attribute? "v-for").toList ++ e.attributes.filter (·.isSite)).Sublist as := by
  let isLoop (a : Attribute) : Bool := Text.sameIgnoringCase a.name "v-for"
  refine ⟨_, List.filter_append_perm isLoop e.attributes, List.Sublist.append ?_ ?_⟩
  · cases h : e.attribute? "v-for" with
    | none => exact List.nil_sublist _
    | some a =>
      refine List.singleton_sublist.2 (List.mem_filter.2 ⟨List.mem_of_find?_eq_some h, ?_⟩)
      exact List.find?_some h
  · refine List.monotone_filter_right _ fun a hsite => ?_
    cases hloop : isLoop a with
    | false => rfl
    | true => exact absurd hsite (not_isSite_of_loop hloop)

/-! ## Import elements -/

mutual

/-- The import elements at a node or below it that are in no other one. -/
def Node.imports (settings : Settings) : Node → List Element
  | .element e children =>
    if Compile.isImport settings e then [e] else imports settings children
  | .text .. | .comment .. => []

/-- The import elements among the nodes and below them that are in no other one. -/
def imports (settings : Settings) : List Node → List Element
  | [] => []
  | node :: nodes => node.imports settings ++ imports settings nodes

end

mutual

/-- The elements at a node and below it are pieces of the source within the node. -/
theorem Node.Laid.elements {node : Node} (h : node.Laid source) :
    ∀ e ∈ node.elements, node.span.start ≤ e.1.span.start ∧ e.1.span.stop ≤ node.span.stop ∧
      e.1.span.Cuts source := by
  cases node with
  | text value span => simp [Node.elements]
  | comment value span => simp [Node.elements]
  | element e children =>
    rw [Node.Laid] at h
    obtain ⟨hcuts, htagged, hended, hchildren⟩ := h
    have hbelow := Laid.elements hchildren
    have hstop := hended.contentsStop_le
    have hbegins := htagged.begins
    have hproper := htagged.cuts.proper
    simp only [Node.elements, List.mem_cons, forall_eq_or_imp, Node.span]
    refine ⟨⟨Nat.le_refl _, Nat.le_refl _, hcuts⟩, fun b hb => ?_⟩
    obtain ⟨hlo, hhi, hb⟩ := hbelow b hb
    exact ⟨by omega, by omega, hb⟩

/-- The elements of a forest are pieces of the source within its range. -/
theorem Laid.elements {lo hi : Nat} {nodes : List Node} (h : Laid source lo hi nodes) :
    ∀ e ∈ elementsOf nodes, lo ≤ e.1.span.start ∧ e.1.span.stop ≤ hi ∧ e.1.span.Cuts source := by
  cases nodes with
  | nil => simp [elementsOf]
  | cons node nodes =>
    rw [Laid] at h
    obtain ⟨hstart, hnode, hnodes⟩ := h
    have hle := hnodes.le
    have hproper := hnode.cuts.proper
    intro e he
    rw [elementsOf, List.mem_append] at he
    rcases he with he | he
    · obtain ⟨hlo, hhi, hcuts⟩ := hnode.elements e he
      exact ⟨by omega, by omega, hcuts⟩
    · obtain ⟨hlo, hhi, hcuts⟩ := Laid.elements hnodes e he
      exact ⟨by omega, hhi, hcuts⟩

end

/-- The import elements of a forest are the outermost ones and some that are inside of those. -/
def SplitImports (settings : Settings) (source : List Char) (nodes : List Node)
    (outermost : List Element) : Prop :=
  ∃ nested, (Compile.importElements settings nodes).Perm (outermost ++ nested) ∧
    ∀ n ∈ nested, n.span.Cuts source ∧ ∃ o ∈ outermost, n.span.Inside o.span

/-- The import elements of a forest are those of its first node and those of the rest. -/
theorem importElements_cons (settings : Settings) (node : Node) (nodes : List Node) :
    Compile.importElements settings (node :: nodes) =
      Compile.importElements settings [node] ++ Compile.importElements settings nodes := by
  simp [Compile.importElements, elementsOf]

mutual

/-- The import elements at a node and below it. -/
theorem Node.Laid.splitImports (settings : Settings) {node : Node} (h : node.Laid source) :
    SplitImports settings source [node] (node.imports settings) := by
  cases node with
  | text value span => exact ⟨[], by simp [Compile.importElements, elementsOf, Node.elements, Node.imports], by simp⟩
  | comment value span => exact ⟨[], by simp [Compile.importElements, elementsOf, Node.elements, Node.imports], by simp⟩
  | element e children =>
    rw [Node.Laid] at h
    obtain ⟨hcuts, htagged, hended, hchildren⟩ := h
    -- An import element is outermost here, and all import elements in it lie in its span.
    by_cases himport : Compile.isImport settings e = true
    · refine ⟨Compile.importElements settings children, ?_, ?_⟩
      · simp [Compile.importElements, elementsOf, Node.elements, Node.imports, himport]
      · intro n hn
        obtain ⟨b, hb, rfl⟩ := List.mem_map.1 (List.mem_of_mem_filter hn)
        obtain ⟨hlo, hhi, hb⟩ := hchildren.elements b hb
        have hstop := hended.contentsStop_le
        have hbegins := htagged.begins
        have hproper := htagged.cuts.proper
        refine ⟨hb, e, by simp [Node.imports, himport], by omega, by omega, fun heq => ?_⟩
        rw [heq] at hlo
        omega
    · have hbelow := Laid.splitImports settings hchildren
      have heq : Compile.importElements settings [.element e children] =
          Compile.importElements settings children := by
        simp [Compile.importElements, elementsOf, Node.elements, himport]
      rw [Node.imports, if_neg himport, SplitImports, heq]
      exact hbelow

/-- The import elements of a forest. -/
theorem Laid.splitImports (settings : Settings) {lo hi : Nat} {nodes : List Node}
    (h : Laid source lo hi nodes) :
    SplitImports settings source nodes (imports settings nodes) := by
  cases nodes with
  | nil => exact ⟨[], by simp [Compile.importElements, elementsOf, imports], by simp⟩
  | cons node nodes =>
    rw [Laid] at h
    obtain ⟨nested, hperm, hinside⟩ := h.2.1.splitImports settings
    obtain ⟨nested', hperm', hinside'⟩ := Laid.splitImports settings h.2.2
    refine ⟨nested ++ nested', ?_, ?_⟩
    · rw [importElements_cons, imports]
      refine (hperm.append hperm').trans ?_
      simp only [List.append_assoc]
      exact (List.perm_append_comm_assoc _ _ _).append_left _
    · intro n hn
      rw [imports]
      rcases List.mem_append.1 hn with hn | hn
      · obtain ⟨hcuts, o, ho, hin⟩ := hinside n hn
        exact ⟨hcuts, o, List.mem_append_left _ ho, hin⟩
      · obtain ⟨hcuts, o, ho, hin⟩ := hinside' n hn
        exact ⟨hcuts, o, List.mem_append_right _ ho, hin⟩

end

/-! ## The spans of a forest -/

/-- The spans that a compile may change: those of the outermost import elements and those of the
places. -/
def regions (settings : Settings) (nodes : List Node) : List Span :=
  (imports settings nodes).map (·.span) ++
    (textPlaces nodes ++ places settings nodes).filterMap Place.span?

/-- The interpolations of the texts among the nodes, node by node. -/
theorem textPlaces_cons (node : Node) (nodes : List Node) :
    textPlaces (node :: nodes) = textPlaces [node] ++ textPlaces nodes := by
  cases node <;> simp [textPlaces, childTexts]

/-- The regions of a forest are those of its first node and those of the rest. -/
theorem regions_cons (settings : Settings) (node : Node) (nodes : List Node) :
    (regions settings (node :: nodes)).Perm (regions settings [node] ++ regions settings nodes) := by
  rw [regions, regions, regions, textPlaces_cons, imports, places, imports, imports, places, places]
  simp only [List.map_append, List.filterMap_append, List.append_assoc, List.append_nil]
  refine .append_left _ ((List.perm_append_comm_assoc _ _ _).trans (.append_left _ ?_))
  exact (List.Perm.append_left _ (List.perm_append_comm_assoc _ _ _)).trans
    (List.perm_append_comm_assoc _ _ _)

/-- The regions of a text are the insides of its markers. -/
theorem regions_text (settings : Settings) (value : String) (span : Span) :
    regions settings [.text value span] = (markers value.toList).map (·.span span.start) := by
  simp only [regions, imports, Node.imports, textPlaces, childTexts, places, Node.places,
    List.filterMap_cons, List.filterMap_nil, List.flatMap_cons, List.flatMap_nil, List.append_nil,
    List.map_nil, List.nil_append, List.filterMap_map]
  induction markers value.toList with
  | nil => rfl
  | cons m ms ih => simpa [Place.span?] using ih

/-- The regions of an element that is no import: those of its attributes and those of its contents. -/
theorem regions_element {settings : Settings} {e : Element} {children : List Node}
    (himport : ¬ Compile.isImport settings e = true) :
    (regions settings [.element e children]).Perm
      (((e.attribute? "v-for").toList ++ e.attributes.filter (·.isSite)).filterMap (·.valueSpan) ++
        regions settings children) := by
  have hsites (as : List Attribute) (place : Attribute → Place)
      (h : ∀ a, (place a).span? = a.valueSpan) :
      (as.map place).filterMap Place.span? = as.filterMap (·.valueSpan) := by
    rw [List.filterMap_map]
    exact List.filterMap_congr fun a _ => h a
  simp only [regions, imports, Node.imports, if_neg himport, places, Node.places, Element.places,
    textPlaces, childTexts, List.filterMap_cons, List.filterMap_nil, List.flatMap_nil,
    List.append_nil, List.nil_append, List.filterMap_append, List.append_assoc,
    hsites _ (.loop e) fun _ => rfl, hsites _ (.value e) fun _ => rfl]
  refine (List.perm_append_comm_assoc _ _ _).trans (.append_left _ ?_)
  exact List.perm_append_comm_assoc _ _ _

mutual

/-- The regions of a node are apart from each other and lie within its span. -/
theorem Node.Laid.spread (settings : Settings) {node : Node} (h : node.Laid source) :
    Span.Spread node.span.start node.span.stop (regions settings [node]) := by
  cases node with
  | text value span =>
    rw [Node.Laid] at h
    rw [regions_text]
    exact (located_markers h.2).1
  | comment value span => exact .nil
  | element e children =>
    rw [Node.Laid] at h
    obtain ⟨hcuts, htagged, hended, hchildren⟩ := h
    by_cases himport : Compile.isImport settings e = true
    · have hregions : regions settings [.element e children] = [e.span] := by
        simp [regions, imports, Node.imports, places, Node.places, textPlaces, childTexts, himport]
      rw [hregions]
      exact .single (Nat.le_refl _) (Nat.le_refl _)
    · obtain ⟨as, hperm, hsub⟩ := sites_sublist e
      have hall := spread_valueSpans htagged.order htagged.laid
      have hsites := (hall.perm (hperm.symm.filterMap _)).sublist (hsub.filterMap _)
      have hbelow := Laid.spread settings hchildren
      have hproper := htagged.cuts.proper
      -- The attributes stand in the start tag, in front of the contents.
      have hinner := hsites.append hbelow (by omega) hchildren.le
      refine (hinner.perm (regions_element himport).symm).mono ?_ hended.contentsStop_le
      exact Nat.le_of_eq htagged.begins

/-- The regions of a forest are apart from each other and lie within its range. -/
theorem Laid.spread (settings : Settings) {lo hi : Nat} {nodes : List Node}
    (h : Laid source lo hi nodes) : Span.Spread lo hi (regions settings nodes) := by
  cases nodes with
  | nil => exact .nil
  | cons node nodes =>
    rw [Laid] at h
    obtain ⟨hstart, hnode, hnodes⟩ := h
    have hproper := hnode.cuts.proper
    have hfirst := (hnode.spread settings).mono hstart (Nat.le_refl _)
    have hrest := Laid.spread settings hnodes
    exact (hfirst.append hrest (by omega) hnodes.le).perm (regions_cons settings node nodes).symm

end

/-! ## Where the places of a forest are -/

/-- The interpolations of the texts among the nodes stand in the source. -/
theorem located_textPlaces {lo hi : Nat} {nodes : List Node} (h : Laid source lo hi nodes) :
    ∀ place ∈ textPlaces nodes, place.Located source := by
  induction nodes generalizing lo with
  | nil => simp [textPlaces, childTexts]
  | cons node nodes ih =>
    rw [Laid] at h
    obtain ⟨-, hnode, hnodes⟩ := h
    rw [textPlaces_cons]
    simp only [List.mem_append]
    rintro place (hplace | hplace)
    · cases node with
      | text value span =>
        rw [Node.Laid] at hnode
        simp only [textPlaces, childTexts, List.filterMap_cons, List.filterMap_nil,
          List.flatMap_cons, List.flatMap_nil, List.append_nil, List.mem_map] at hplace
        obtain ⟨m, hm, rfl⟩ := hplace
        exact (located_markers hnode.2).2 m hm
      | comment value span => simp [textPlaces, childTexts] at hplace
      | element e children => simp [textPlaces, childTexts] at hplace
    · exact ih hnodes place hplace

/-- The value of an attribute stands in the source, with its references. -/
theorem Attribute.Laid.located {a : Attribute} (h : a.Laid source) (span : Span)
    (hspan : a.valueSpan = some span) :
    ∃ raw, span.Holds source raw ∧ a.value = String.ofList (decodeReferences raw) :=
  (h.valued span hspan).2.2

mutual

/-- The places at a node and below it stand in the source. -/
theorem Node.Laid.located (settings : Settings) {node : Node} (h : node.Laid source) :
    ∀ place ∈ node.places settings, place.Located source := by
  cases node with
  | text value span => simp [Node.places]
  | comment value span => simp [Node.places]
  | element e children =>
    rw [Node.Laid] at h
    obtain ⟨hcuts, htagged, hended, hchildren⟩ := h
    have hbelow := Laid.located settings hchildren
    rw [Node.places]
    split
    · simp
    · simp only [Element.places, List.mem_append, List.mem_map, List.mem_filter, Option.mem_toList]
      rintro place (((⟨a, ha, rfl⟩ | ⟨a, ⟨ha, -⟩, rfl⟩) | htext) | hplace)
      · exact (htagged.laid a (List.mem_of_find?_eq_some ha)).located
      · exact (htagged.laid a ha).located
      · exact located_textPlaces hchildren place htext
      · exact hbelow place hplace

/-- The places of a forest stand in the source. -/
theorem Laid.located (settings : Settings) {lo hi : Nat} {nodes : List Node}
    (h : Laid source lo hi nodes) : ∀ place ∈ places settings nodes, place.Located source := by
  cases nodes with
  | nil => simp [places]
  | cons node nodes =>
    rw [Laid] at h
    rw [places]
    intro place hplace
    rcases List.mem_append.1 hplace with hplace | hplace
    · exact h.2.1.located settings place hplace
    · exact Laid.located settings h.2.2 place hplace

end

/-- The places of a whole template, in the order of the walk. -/
theorem rootPlaces_perm (settings : Settings) (nodes : List Node) :
    (rootPlaces settings nodes).Perm (textPlaces nodes ++ places settings nodes) := by
  induction nodes with
  | nil => exact .refl _
  | cons node nodes ih =>
    rw [rootPlaces, List.flatMap_cons, textPlaces_cons node nodes, places, List.append_assoc,
      List.append_assoc]
    refine .append_left _ ?_
    exact (ih.append_left _).trans (List.perm_append_comm_assoc _ _ _)

end Markup

end Stencil
