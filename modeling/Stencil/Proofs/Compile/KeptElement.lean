import Stencil.Proofs.Compile.Stop
import Stencil.Proofs.Markup.Layout

/-!
# The elements that the walk comes to

An import element is taken out of the template, with all that it contains. The walk comes to each
other element, once, and the parents come first (`required?_rootStops`): the stop at which it is seen
whether all props of an element are passed is the last of its stops in front of its texts, and there
is one for each element.

So the start tags of these elements are at different places, in the order of the source
(`Laid.keptElements`). That a start tag is not empty, which makes its start tell the element from all
others, is part of the layout of the tree. With the two, a diagnostic at a start tag belongs to one
element.

**What it does not establish.** Nothing is said of what is found at such a stop; that an element is
visited does not depend on whether it is a use of a component.
-/

namespace Stencil

open Markup (Attribute Element Node)

namespace Markup

variable {source : List Char}

mutual

/-- The elements at a node and below it that are in no import element, parents first. -/
def Node.keptElements (settings : Settings) : Node → List Element
  | .element e children =>
    if Compile.isImport settings e then [] else e :: keptElements settings children
  | .text .. | .comment .. => []

/-- The elements among the nodes and below them that are in no import element. -/
def keptElements (settings : Settings) : List Node → List Element
  | [] => []
  | node :: nodes => node.keptElements settings ++ keptElements settings nodes

end

/-- The element at whose stop it is seen whether all props are passed. -/
def required? (s : Stop) : Option Element :=
  match s.task with
  | .required e => some e
  | .site _ | .plain .. => none

/-- What is done about an attribute is not what is seen of the props. -/
theorem required?_task? {e : Element} {a : Attribute} {task : Task} {loops : List Attribute}
    (h : a.task? e = some task) : required? ⟨loops, task⟩ = none := by
  unfold Attribute.task? at h
  cases hkind : AttributeKind.ofName a.name with
  | loop | model =>
    rw [hkind] at h
    cases h
  | event | propertyBinding | conditional | directive | plain =>
    rw [hkind] at h
    cases h
    rfl

/-- An element has one stop at which the props are compared. -/
theorem required?_tasks (e : Element) (children : List Node) (loops : List Attribute) :
    ((e.tasks children).map (Stop.mk loops)).filterMap required? = [e] := by
  have hattributes : (e.attributes.filterMap (·.task? e)).filterMap (required? ∘ Stop.mk loops) = [] := by
    refine List.filterMap_eq_nil_iff.2 fun task htask => ?_
    obtain ⟨a, -, ha⟩ := List.mem_filterMap.1 htask
    exact required?_task? ha
  have htexts : ((textPlaces children).map Task.site).filterMap (required? ∘ Stop.mk loops) = [] := by
    rw [List.filterMap_map]
    exact List.filterMap_eq_nil_iff.2 fun _ _ => rfl
  rw [List.filterMap_map, Element.tasks, List.filterMap_append, List.filterMap_append, hattributes, htexts]
  rfl

mutual

/-- The stops at a node and below it come to each element once. -/
theorem Node.required?_stops (settings : Settings) (loops : List Attribute) (node : Node) :
    (node.stops settings loops).filterMap required? = node.keptElements settings := by
  cases node with
  | text value span => rfl
  | comment value span => rfl
  | element e children =>
    rw [Node.stops, Node.keptElements]
    split
    · rfl
    · have hbelow (here : List Attribute) := required?_stops settings here children
      have hown (here : List Attribute) := required?_tasks e children here
      cases e.loop? with
      | none => simp [hown, hbelow]
      | some a =>
        have hloop (here : List Attribute) : required? ⟨here, .site (.loop e a)⟩ = none := rfl
        simp [hown, hbelow, hloop]

/-- The stops in a forest come to each element once. -/
theorem required?_stops (settings : Settings) (loops : List Attribute) (nodes : List Node) :
    (stops settings loops nodes).filterMap required? = keptElements settings nodes := by
  cases nodes with
  | nil => rfl
  | cons node nodes =>
    rw [stops, keptElements, List.filterMap_append, Node.required?_stops, required?_stops]

end

/-- The walk comes to each element that is in no import element, once. -/
theorem required?_rootStops (settings : Settings) (nodes : List Node) :
    (rootStops settings nodes).filterMap required? = keptElements settings nodes := by
  induction nodes with
  | nil => rfl
  | cons node nodes ih =>
    have htexts : ((textPlaces [node]).map fun place => (⟨[], .site place⟩ : Stop)).filterMap required? =
        [] := by
      rw [List.filterMap_map]
      exact List.filterMap_eq_nil_iff.2 fun _ _ => rfl
    rw [rootStops] at ih ⊢
    rw [List.flatMap_cons, List.filterMap_append, List.filterMap_append, htexts, ih,
      Node.required?_stops, List.nil_append]
    rfl

mutual

/-- Start tags of elements are in the order of the elements. -/
theorem Node.Laid.keptElements (settings : Settings) {node : Node} (h : node.Laid source) :
    (∀ e ∈ node.keptElements settings, node.span.start ≤ e.startSpan.start ∧
      e.startSpan.start < node.span.stop ∧ e.startSpan.Cuts source) ∧
    (node.keptElements settings).Pairwise fun d e => d.startSpan.start < e.startSpan.start := by
  cases node with
  | text value span => exact ⟨nofun, .nil⟩
  | comment value span => exact ⟨nofun, .nil⟩
  | element e children =>
    rw [Node.Laid] at h
    obtain ⟨hcuts, htagged, hended, hchildren⟩ := h
    rw [Node.keptElements]
    -- Within an import element there is nothing to show; else the start tag is in front of the
    -- contents.
    split
    · exact ⟨nofun, .nil⟩
    · obtain ⟨hbelow, hordered⟩ := Laid.keptElements settings hchildren
      have hbegins := htagged.begins
      have hproper := htagged.cuts.proper
      have hle := hchildren.le
      have hstop := hended.contentsStop_le
      refine ⟨List.forall_mem_cons.2 ⟨⟨Nat.le_of_eq hbegins, ?_, htagged.cuts⟩, ?_⟩,
        List.pairwise_cons.2 ⟨?_, hordered⟩⟩
      · show e.startSpan.start < e.span.stop
        omega
      · intro d hd
        obtain ⟨hlo, hhi, hd⟩ := hbelow d hd
        refine ⟨?_, ?_, hd⟩
        · show e.span.start ≤ d.startSpan.start
          omega
        · show d.startSpan.start < e.span.stop
          omega
      · intro d hd
        obtain ⟨hlo, -, -⟩ := hbelow d hd
        omega

/-- The start tags of a forest lie in its range and are in the order of its elements. -/
theorem Laid.keptElements (settings : Settings) {lo hi : Nat} {nodes : List Node}
    (h : Laid source lo hi nodes) :
    (∀ e ∈ Markup.keptElements settings nodes, lo ≤ e.startSpan.start ∧ e.startSpan.start < hi ∧
      e.startSpan.Cuts source) ∧
    (Markup.keptElements settings nodes).Pairwise fun d e => d.startSpan.start < e.startSpan.start := by
  cases nodes with
  | nil => exact ⟨nofun, .nil⟩
  | cons node nodes =>
    rw [Laid] at h
    obtain ⟨hstart, hnode, hnodes⟩ := h
    have hle := hnodes.le
    have hproper := hnode.cuts.proper
    obtain ⟨hfirst, hfirstOrdered⟩ := Node.Laid.keptElements settings hnode
    obtain ⟨hrest, hrestOrdered⟩ := Laid.keptElements settings hnodes
    rw [Markup.keptElements]
    refine ⟨List.forall_mem_append.2 ⟨?_, ?_⟩, List.pairwise_append.2 ⟨hfirstOrdered, hrestOrdered, ?_⟩⟩
    · intro e he
      obtain ⟨hlo, hhi, hcuts⟩ := hfirst e he
      exact ⟨by omega, by omega, hcuts⟩
    · intro e he
      obtain ⟨hlo, hhi, hcuts⟩ := hrest e he
      exact ⟨by omega, hhi, hcuts⟩
    · intro d hd e he
      obtain ⟨-, hhi, -⟩ := hfirst d hd
      obtain ⟨hlo, -, -⟩ := hrest e he
      omega

end

end Markup

end Stencil
