import Stencil.Proofs.Expr.RoundTrip
import Stencil.Resolution
import Mathlib.Data.List.Basic

/-!
# The parts of an expression and its names

What is inside of what in an expression (`PartOf`), and which names and casts of a name it holds, from
left to right (`names`, `castsOf`). These are notions of the tree alone; the functions of the
resolution that collect bare names and calls are measured by them: `mem_unscopedCalls`,
`map_name_bareNames`, `mem_bareNames`, `castsOf_eq_filterMap`. A renaming acts on them as it should
(`names_rename`, `bareNames_rename`), and taking the leading cast off takes no name away
(`names_takeLeadingCast`).

All of it goes by one walk over the nodes. `nodes_eq` and `mem_filterMap_nodes` say that the walk
visits the expression and then its children, and that what it finds is found at the parts; each
collection has an equation of the same form (`names_eq`, `castsOf_eq`, `bareNames_eq`), so its proof
follows the walk.

In an expression that was read, left and right are those of the text. `Derives.pieces` says that the
tokens of a node hold those of its children in order, and so `occurrences_of_parse`: the bare names
are some of the tokens of the text, in their order.

**What it does not establish.** What a name stands for is a matter of the context and is not looked
at.
-/

namespace Stencil

namespace Expr

variable {d e outer part : Expr} {outer? : Option Expr}

/-! ## Parts -/

/-- The `part` stands in `e`, directly inside of `outer?`. The expression itself is inside of
nothing. -/
inductive PartOf (e : Expr) : Option Expr → Expr → Prop
  | self : PartOf e none e
  | child {outer? : Option Expr} {outer part : Expr} (h : PartOf e outer? outer)
      (hpart : part ∈ outer.children) : PartOf e (some outer) part

/-- A part of a part is a part. -/
theorem PartOf.trans (h : PartOf e outer? d) {outer'? : Option Expr} (h' : PartOf d outer'? part) :
    PartOf e (outer'?.or outer?) part := by
  induction h' with
  | self => exact h
  | child _ hpart ih => exact .child ih hpart

/-- The expression itself, and the parts of its children. -/
theorem partOf_iff : PartOf e outer? part ↔
    outer? = none ∧ part = e ∨ ∃ d ∈ e.children, ∃ inner? : Option Expr,
      PartOf d inner? part ∧ outer? = inner?.or (some e) := by
  constructor
  · intro h
    induction h with
    | self => exact .inl ⟨rfl, rfl⟩
    | @child _ outer part _ hpart ih =>
      refine .inr ?_
      rcases ih with ⟨-, rfl⟩ | ⟨d, hd, inner?, hinner, -⟩
      · exact ⟨part, hpart, none, .self, rfl⟩
      · exact ⟨d, hd, some outer, .child hinner hpart, rfl⟩
  · rintro (⟨rfl, rfl⟩ | ⟨d, hd, inner?, hinner, rfl⟩)
    · exact .self
    · exact (PartOf.child .self hd).trans hinner

/-! ## The walk over the nodes -/

/-- The walk over several expressions. -/
theorem nodesOfList_eq (depth : Nat) (es : List Expr) :
    nodesOfList depth es = es.flatMap (nodes depth) := by
  induction es with
  | nil => rfl
  | cons e es ih => rw [nodesOfList, ih, List.flatMap_cons]

/-- The walk visits the expression and then what is inside of its children. -/
theorem nodes_eq (depth : Nat) (e : Expr) :
    e.nodes depth = (depth, e) :: e.children.flatMap (nodes (depth + 1)) := by
  cases e <;> simp [nodes, children, nodesOfList_eq]

/-- What holds of the expression and all its parts holds of every node of the walk. -/
theorem all_iff_nodes {p : Expr → Prop} (depth : Nat) (e : Expr) :
    e.All p ↔ ∀ node ∈ e.nodes depth, p node.2 := by
  induction e using inductParts generalizing depth with
  | h e ih =>
    rw [all_iff, nodes_eq, List.forall_mem_cons, List.forall_mem_flatMap]
    exact and_congr_right fun _ => forall₂_congr fun d hd => ih d hd _

/-- What is found at the nodes, wherever the counting of their depth starts. -/
theorem filterMap_nodes {α : Type} (f : Expr → Option α) (depth : Nat) (e : Expr) :
    (e.nodes depth).filterMap (fun node => f node.2) =
      (f e).toList ++ e.children.flatMap fun d => (d.nodes 0).filterMap fun node => f node.2 := by
  have hdepth (e : Expr) : ∀ depth, (e.nodes depth).filterMap (fun node => f node.2) =
      (e.nodes 0).filterMap fun node => f node.2 := by
    induction e using inductParts with
    | h e ih =>
      intro depth
      rw [nodes_eq, nodes_eq 0, List.filterMap_cons, List.filterMap_cons, List.filterMap_flatMap,
        List.filterMap_flatMap]
      have hbelow : e.children.flatMap (fun d => (d.nodes (depth + 1)).filterMap fun node => f node.2)
          = e.children.flatMap fun d => (d.nodes (0 + 1)).filterMap fun node => f node.2 :=
        List.flatMap_congr fun d hd => (ih d hd _).trans (ih d hd _).symm
      rw [hbelow]
  rw [nodes_eq, List.filterMap_cons, List.filterMap_flatMap]
  have hbelow : e.children.flatMap (fun d => (d.nodes (depth + 1)).filterMap fun node => f node.2)
      = e.children.flatMap fun d => (d.nodes 0).filterMap fun node => f node.2 :=
    List.flatMap_congr fun d _ => hdepth d _
  rw [hbelow]
  cases f e <;> rfl

/-- The nodes of the walk are the parts. -/
theorem mem_filterMap_nodes {α : Type} {f : Expr → Option α} {a : α} :
    a ∈ (e.nodes 0).filterMap (fun node => f node.2) ↔
      ∃ outer? part, PartOf e outer? part ∧ f part = some a := by
  induction e using inductParts with
  | h e ih =>
    rw [filterMap_nodes, List.mem_append, Option.mem_toList, List.mem_flatMap]
    constructor
    · rintro (h | ⟨d, hd, h⟩)
      · exact ⟨none, e, .self, h⟩
      · obtain ⟨inner?, part, hpart, ha⟩ := (ih d hd).1 h
        exact ⟨_, part, partOf_iff.2 (.inr ⟨d, hd, inner?, hpart, rfl⟩), ha⟩
    · rintro ⟨outer?, part, hpart, ha⟩
      rcases partOf_iff.1 hpart with ⟨-, rfl⟩ | ⟨d, hd, inner?, hinner, -⟩
      · exact .inl ha
      · exact .inr ⟨d, hd, (ih d hd).2 ⟨inner?, part, hinner, ha⟩⟩

/-! ## Names and casts -/

/-- The name, if the expression is a bare one. -/
def name? : Expr → Option String
  | name _ n => some n
  | _ => none

/-- The bare names of the expression, from left to right. -/
def names (e : Expr) : List String := (e.nodes 0).filterMap fun node => node.2.name?

/-- The type, if the expression is a cast of the bare name `n`. -/
def castOf? (n : String) : Expr → Option TypeRef
  | cast _ type operand => if operand.name? = some n then some type else none
  | _ => none

/-- The types that the bare name `n` is cast to, from left to right. -/
def castsOf (n : String) (e : Expr) : List TypeRef :=
  (e.nodes 0).filterMap fun node => node.2.castOf? n

/-- The type, if the expression is a cast. -/
def castType? : Expr → Option TypeRef
  | cast _ type _ => some type
  | _ => none

/-- The name that is called, if the expression is a call without a scope. -/
def callee? : Expr → Option String
  | call _ n _ => some n
  | _ => none

/-- The names of an expression are its own, if it is one, and those of its children. -/
theorem names_eq (e : Expr) : e.names = e.name?.toList ++ e.children.flatMap names :=
  filterMap_nodes name? 0 e

/-- The casts of a name are that of the expression, if it is one, and those in its children. -/
theorem castsOf_eq (n : String) (e : Expr) :
    e.castsOf n = (e.castOf? n).toList ++ e.children.flatMap (castsOf n) :=
  filterMap_nodes (castOf? n) 0 e

theorem name?_eq_some {n : String} : e.name? = some n ↔ ∃ span, e = name span n := by
  cases e <;> simp [name?]

/-- The names are those of the parts that are a bare name. -/
theorem mem_names {n : String} : n ∈ e.names ↔ ∃ outer? span, PartOf e outer? (name span n) := by
  rw [names, mem_filterMap_nodes]
  simp only [name?_eq_some]
  constructor
  · rintro ⟨outer?, _, hpart, span, rfl⟩
    exact ⟨outer?, span, hpart⟩
  · rintro ⟨outer?, span, hpart⟩
    exact ⟨outer?, _, hpart, span, rfl⟩

/-- The calls without a scope are those of the parts. -/
theorem mem_unscopedCalls {n : String} :
    n ∈ e.unscopedCalls ↔ ∃ outer? span args, PartOf e outer? (call span n args) := by
  have hcalls : e.unscopedCalls = (e.nodes 0).filterMap fun node => node.2.callee? := by
    refine List.filterMap_congr fun node _ => ?_
    obtain ⟨depth, node⟩ := node
    cases node <;> rfl
  rw [hcalls, mem_filterMap_nodes]
  constructor
  · rintro ⟨outer?, part, hpart, hn⟩
    cases part with
    | call span m args =>
      obtain rfl := Option.some.inj hn
      exact ⟨outer?, span, args, hpart⟩
    | _ => cases hn
  · rintro ⟨outer?, span, args, hpart⟩
    exact ⟨outer?, _, hpart, rfl⟩

/-! ## Bare names -/

/-- The bare names of several expressions. -/
theorem bareNamesOfList_eq (es : List Expr) : bareNamesOfList es = es.flatMap (bareNames none) := by
  induction es with
  | nil => rfl
  | cons e es ih => rw [bareNamesOfList, ih, List.flatMap_cons]

/-- A bare name is its own only one; any other expression has those of its parts, to which it says
whether it is a cast. -/
theorem bareNames_eq (castTo : Option TypeRef) (e : Expr) :
    e.bareNames castTo = (e.name?.map (⟨·, castTo⟩)).toList ++
      e.children.flatMap (bareNames e.castType?) := by
  cases e <;> simp [bareNames, name?, children, castType?, bareNamesOfList_eq]

/-- Only a bare name itself takes notice of a cast in front of it. -/
theorem bareNames_of_name?_eq_none (h : e.name? = none) (castTo castTo' : Option TypeRef) :
    e.bareNames castTo = e.bareNames castTo' := by
  rw [bareNames_eq, bareNames_eq castTo', h]
  rfl

/-- The bare names, in their order, are the names. -/
theorem map_name_bareNames (castTo : Option TypeRef) (e : Expr) :
    (e.bareNames castTo).map (·.name) = e.names := by
  induction e using inductParts generalizing castTo with
  | h e ih =>
    rw [bareNames_eq, names_eq, List.map_append, List.map_flatMap]
    congr 1
    · cases e.name? <;> rfl
    · exact List.flatMap_congr fun d hd => ih d hd _

/-- The cast in front of a bare name is what the name stands in. -/
theorem mem_bareNames {castTo : Option TypeRef} {use : BareName} :
    use ∈ e.bareNames castTo ↔ ∃ outer? span, PartOf e outer? (name span use.name) ∧
      use.castTo = (outer?.map castType?).getD castTo := by
  induction e using inductParts generalizing castTo with
  | h e ih =>
    rw [bareNames_eq, List.mem_append, Option.mem_toList, List.mem_flatMap, Option.map_eq_some_iff]
    constructor
    · rintro (⟨n, hn, rfl⟩ | ⟨d, hd, huse⟩)
      · obtain ⟨span, rfl⟩ := name?_eq_some.1 hn
        exact ⟨none, span, .self, rfl⟩
      · obtain ⟨inner?, span, hpart, hcast⟩ := (ih d hd).1 huse
        refine ⟨_, span, partOf_iff.2 (.inr ⟨d, hd, inner?, hpart, rfl⟩), ?_⟩
        cases inner? with
        | none => exact hcast
        | some outer => exact hcast
    · rintro ⟨outer?, span, hpart, hcast⟩
      rcases partOf_iff.1 hpart with ⟨rfl, heq⟩ | ⟨d, hd, inner?, hinner, rfl⟩
      · refine .inl ⟨use.name, name?_eq_some.2 ⟨span, heq.symm⟩, ?_⟩
        rw [← show use.castTo = castTo from hcast]
      · refine .inr ⟨d, hd, (ih d hd).2 ⟨inner?, span, hinner, ?_⟩⟩
        cases inner? with
        | none => exact hcast
        | some outer => exact hcast

/-- The casts of a name, in their order, are the casts that its uses have. -/
theorem castsOf_eq_filterMap (n : String) (e : Expr) :
    e.castsOf n = (e.bareNames none).filterMap fun use =>
      if use.name = n then use.castTo else none := by
  induction e using inductParts with
  | h e ih =>
    have hbelow : e.children.flatMap (castsOf n) = e.children.flatMap fun d =>
        (d.bareNames none).filterMap fun use => if use.name = n then use.castTo else none :=
      List.flatMap_congr fun d hd => ih d hd
    rw [castsOf_eq, hbelow, bareNames_eq, List.filterMap_append, List.filterMap_flatMap]
    cases e with
    | cast span type operand =>
      simp only [children, List.flatMap_cons, List.flatMap_nil, List.append_nil]
      show (if operand.name? = some n then some type else none).toList ++ _ =
        _ ++ (operand.bareNames (some type)).filterMap _
      cases hname : operand.name? with
      | none => simp [bareNames_of_name?_eq_none hname (some type) none, name?]
      | some m =>
        obtain ⟨span', rfl⟩ := name?_eq_some.1 hname
        by_cases hm : m = n <;> simp [bareNames, name?, hm]
    | name span m => simp [castOf?, name?, children]
    | _ => simp [castOf?, castType?, name?]

/-! ## Renaming -/

section

variable (type : TypeRef → TypeRef) (name' call' : String → String)

/-- Renaming several expressions renames each. -/
theorem renameListM_eq (es : List Expr) :
    renameListM (m := Id) ⟨type, name', call'⟩ es = es.map (rename type name' call') := by
  induction es with
  | nil => rfl
  | cons e es ih => exact congrArg (e.rename type name' call' :: ·) ih

/-- The children of a renamed expression are renamed. -/
theorem children_rename (e : Expr) :
    (e.rename type name' call').children = e.children.map (rename type name' call') := by
  cases e with
  | call span n args => exact renameListM_eq type name' call' args
  | creation span type' args => exact renameListM_eq type name' call' args
  | method span scope n args =>
    exact congrArg (scope.rename type name' call' :: ·) (renameListM_eq type name' call' args)
  | _ => rfl

/-- A renamed bare name has the new name. -/
theorem name?_rename (e : Expr) : (e.rename type name' call').name? = e.name?.map name' := by
  cases e <;> rfl

/-- The type of a cast is renamed as a type. -/
theorem castType?_rename (e : Expr) :
    (e.rename type name' call').castType? = e.castType?.map type := by
  cases e <;> rfl

/-- The names of a renamed expression are renamed one by one. -/
theorem names_rename (e : Expr) : (e.rename type name' call').names = e.names.map name' := by
  induction e using inductParts with
  | h e ih =>
    rw [names_eq, names_eq e, name?_rename, children_rename, List.map_append, List.flatMap_map,
      List.map_flatMap]
    congr 1
    · cases e.name? <;> rfl
    · exact List.flatMap_congr ih

/-- The bare names of a renamed expression are renamed with the casts in front of them. -/
theorem bareNames_rename (e : Expr) (castTo : Option TypeRef) :
    (e.rename type name' call').bareNames (castTo.map type) =
      (e.bareNames castTo).map fun use => ⟨name' use.name, use.castTo.map type⟩ := by
  induction e using inductParts generalizing castTo with
  | h e ih =>
    rw [bareNames_eq, bareNames_eq castTo, name?_rename, castType?_rename, children_rename,
      List.map_append, List.flatMap_map, List.map_flatMap]
    congr 1
    · cases e.name? <;> rfl
    · exact List.flatMap_congr fun d hd => ih d hd _

end

/-- Taking the leading cast off takes no name away. -/
theorem names_of_leadingCast? {type : TypeRef} (h : e.leadingCast? = some (type, d)) :
    d.names = e.names := by
  induction e using inductParts generalizing d with
  | h e ih =>
    cases e with
    | cast span t operand =>
      obtain ⟨-, rfl⟩ := Prod.mk.inj (Option.some.inj h)
      rw [names_eq (cast span t operand)]
      simp [name?, children]
    | binary span op left right =>
      obtain ⟨⟨t, left'⟩, hleft, heq⟩ := Option.map_eq_some_iff.1 h
      obtain ⟨rfl, rfl⟩ := Prod.mk.inj heq
      have hsame : left'.names = left.names := ih left List.mem_cons_self hleft
      rw [names_eq, names_eq (binary span op left right)]
      simp [name?, children, hsame]
    | _ => cases h

/-- The names stay when a leading cast is taken off. -/
theorem names_takeLeadingCast (e : Expr) : e.takeLeadingCast.1.names = e.names := by
  unfold takeLeadingCast
  split
  · next h => exact names_of_leadingCast? h
  · rfl

/-! ## Names that were read -/

/-- A bare name and where it stands. -/
def occurrence? : Expr → Option (Span × String)
  | name span n => some (span, n)
  | _ => none

/-- The bare names of the expression and where they stand, in the order of the walk. -/
def occurrences (e : Expr) : List (Span × String) :=
  (e.nodes 0).filterMap fun node => node.2.occurrence?

/-- The occurrences of names are that of the expression, if it is one, and those of its children. -/
theorem occurrences_eq (e : Expr) :
    e.occurrences = e.occurrence?.toList ++ e.children.flatMap occurrences :=
  filterMap_nodes occurrence? 0 e

/-- The names are those of their occurrences. -/
theorem names_eq_map_occurrences (e : Expr) : e.names = e.occurrences.map (·.2) := by
  rw [names, occurrences, List.map_filterMap]
  congr 1
  funext node
  cases node.2 <;> rfl

end Expr

/-- The name that the token is, and where it stands. -/
def Token.occurrence? (t : Token) : Option (Span × String) :=
  match t.lexeme with
  | .identifier n => some (t.span, n)
  | _ => none

/-- Joined parts stand among the tokens in their order. -/
theorem Joined.flatten_sublist {us : List Token} {parts : List (List Token)} (h : Joined us parts) :
    parts.flatten.Sublist us := by
  induction h with
  | none => exact List.nil_sublist _
  | one ts => simp
  | more span h ih => exact (List.Sublist.refl _).append (ih.cons _)

namespace Expr

/-- The tokens of an expression hold those of its children, in the order of the children. -/
theorem Derives.pieces {ts : List Token} {e : Expr} (h : Derives ts e) :
    ∃ pieces : List (List Token × Expr), pieces.map (·.2) = e.children ∧
      (pieces.map (·.1)).flatten.Sublist ts ∧ ∀ p ∈ pieces, Derives p.1 p.2 := by
  have harguments {us : List Token} {parts : List (List Token × Expr)} (h : AreArguments us parts) :
      (parts.map (·.1)).flatten.Sublist us := by
    obtain ⟨vs, s₁, s₂, hjoined, rfl⟩ := h
    exact (hjoined.flatten_sublist.trans (List.sublist_append_left _ _)).cons _
  have hone {us : List Token} {d : Expr} (h : Derives us d) (hus : us.Sublist ts)
      (hchildren : e.children = [d]) : ∃ pieces : List (List Token × Expr),
        pieces.map (·.2) = e.children ∧ (pieces.map (·.1)).flatten.Sublist ts ∧
        ∀ p ∈ pieces, Derives p.1 p.2 :=
    ⟨[(us, d)], hchildren.symm, by simpa using hus, by simpa using h⟩
  have htwo {us vs : List Token} {c d : Expr} (hc : Derives us c) (hd : Derives vs d)
      (hsublist : (us ++ vs).Sublist ts) (hchildren : e.children = [c, d]) :
      ∃ pieces : List (List Token × Expr), pieces.map (·.2) = e.children ∧
        (pieces.map (·.1)).flatten.Sublist ts ∧ ∀ p ∈ pieces, Derives p.1 p.2 :=
    ⟨[(us, c), (vs, d)], hchildren.symm, by simpa using hsublist, by simpa using ⟨hc, hd⟩⟩
  -- One case for each node, by how many children it has and what stands in front of them.
  cases h with
  | number | string | character | boolean | null | name | this | classLiteral | primitiveClass =>
    exact ⟨[], rfl, List.nil_sublist _, by simp⟩
  | field hvs h | behind hvs _ h | instanceOf hvs h =>
    exact hone h (hvs ▸ List.sublist_append_left _ _) rfl
  | before hvs _ h => exact hone h (hvs ▸ List.sublist_cons_self _ _) rfl
  | enclosed hvs h => exact hone h (hvs ▸ (List.sublist_append_left _ _).cons _) rfl
  | @cast us vs _ _ _ _ s₂ hvs _ h =>
    have hbehind : vs.Sublist (us ++ ⟨.punctuation ')', s₂⟩ :: vs) :=
      (List.sublist_cons_self _ vs).trans (List.sublist_append_right us _)
    exact hone h (hvs ▸ hbehind.cons _) rfl
  | call hvs hargs hparts => exact ⟨_, rfl, hvs ▸ (harguments hargs).cons _, hparts⟩
  | @creation us _ _ _ _ _ hvs _ hargs hparts =>
    have hbehind := (harguments hargs).trans (List.sublist_append_right us _)
    exact ⟨_, rfl, hvs ▸ hbehind.cons _, hparts⟩
  | @method us vs _ scope n s₁ s₂ parts hvs h _ hargs hparts =>
    refine ⟨(us, scope) :: parts, rfl, ?_, ?_⟩
    · rw [hvs]
      exact (List.Sublist.refl us).append (((harguments hargs).cons _).cons _)
    · intro p hp
      rcases List.mem_cons.1 hp with rfl | hp
      · exact h
      · exact hparts p hp
  | @index us vs _ _ _ s₁ s₂ hvs hl _ hr =>
    have hbehind := (List.sublist_append_left vs [⟨.punctuation ']', s₂⟩]).cons ⟨.punctuation '[', s₁⟩
    exact htwo hl hr (hvs ▸ (List.Sublist.refl us).append hbehind) rfl
  | binary hvs _ hl hr | assign hvs _ hl hr =>
    exact htwo hl hr (hvs ▸ (List.Sublist.refl _).append (List.sublist_append_right _ _)) rfl
  | @conditional us vs ws _ c t f s₁ s₂ hvs hc ht hf =>
    refine ⟨[(us, c), (vs, t), (ws, f)], rfl, ?_, by simpa using ⟨hc, ht, hf⟩⟩
    have hbehind := (List.Sublist.refl vs).append (List.sublist_cons_self ⟨.punctuation ':', s₂⟩ ws)
    have hall := (List.Sublist.refl us).append (hbehind.cons ⟨.sign .question, s₁⟩)
    rw [hvs]
    simpa only [List.map_cons, List.map_nil, List.flatten_cons, List.flatten_nil,
      List.append_nil] using hall

/-- Each part of an expression has tokens among those of the expression. -/
theorem Derives.part {ts : List Token} {outer? : Option Expr} {part e : Expr} (h : Derives ts e)
    (hpart : e.PartOf outer? part) : ∃ us, us.Sublist ts ∧ Derives us part := by
  induction hpart with
  | self => exact ⟨ts, List.Sublist.refl ts, h⟩
  | child _ hmem ih =>
    obtain ⟨us, hus, houter⟩ := ih
    obtain ⟨pieces, hchildren, hflatten, hpieces⟩ := houter.pieces
    rw [← hchildren] at hmem
    obtain ⟨p, hp, rfl⟩ := List.mem_map.1 hmem
    have hsublist : p.1.Sublist (pieces.map (·.1)).flatten :=
      List.sublist_flatten_of_mem (List.mem_map_of_mem hp)
    exact ⟨p.1, (hsublist.trans hflatten).trans hus, hpieces p hp⟩

/-- The bare names stand in the text in the order of the walk. -/
theorem Derives.occurrences_sublist {ts : List Token} {e : Expr} (h : Derives ts e) :
    e.occurrences.Sublist (ts.filterMap (·.occurrence?)) := by
  induction e using inductParts generalizing ts with
  | h e ih =>
    rw [occurrences_eq]
    cases hname : e.occurrence? with
    | some occurrence =>
      cases h <;> cases hname
      simp [children, Token.occurrence?]
    | none =>
      obtain ⟨pieces, hchildren, hflatten, hpieces⟩ := h.pieces
      rw [← hchildren] at ih ⊢
      have hbelow : ∀ p ∈ pieces, p.2.occurrences.Sublist (p.1.filterMap (·.occurrence?)) :=
        fun p hp => ih p.2 (List.mem_map_of_mem hp) (hpieces p hp)
      refine List.Sublist.trans ?_ (hflatten.filterMap _)
      clear hchildren hflatten hpieces ih
      induction pieces with
      | nil => exact List.nil_sublist _
      | cons p pieces ih =>
        rw [List.map_cons, List.map_cons, List.flatten_cons, List.filterMap_append]
        exact (hbelow p List.mem_cons_self).append (ih fun q hq => hbelow q (List.mem_cons_of_mem p hq))

/-- The bare names of an expression that was read are tokens of the text, in their order. -/
theorem occurrences_of_parse {text : String} {e : Expr} (h : parse text = .ok e) :
    ∃ tokens, Token.readAll text = .ok tokens ∧
      e.occurrences.Sublist (tokens.filterMap (·.occurrence?)) := by
  unfold parse at h
  cases hread : Token.readAll text with
  | error error =>
    rw [hread] at h
    cases h
  | ok tokens =>
    rw [hread] at h
    exact ⟨tokens, rfl, (derives_of_ofTokens h).occurrences_sublist⟩

/-- The bare names of an expression that was read are names. -/
theorem isName_of_mem_names {text n : String} {e : Expr} (h : parse text = .ok e)
    (hn : n ∈ e.names) : Token.IsName n := by
  obtain ⟨ts, hread, hderives⟩ := parse_eq_ok.1 h
  obtain ⟨outer?, span, hpart⟩ := mem_names.1 hn
  obtain ⟨us, hus, hname⟩ := hderives.part hpart
  cases hname
  exact Token.valid_of_read hread _ (hus.subset (List.mem_singleton.2 rfl))

end Expr

end Stencil
