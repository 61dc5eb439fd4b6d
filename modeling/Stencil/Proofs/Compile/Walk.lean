import Stencil.Proofs.Compile.Visit

/-!
# The walk visits the places of the tree

One lemma for each function of the walk, saying which places it visits: `Visits.marker`,
`Visits.loop`, `Visits.value` and `Visits.attributes` for what an element holds, `Visits.own` for an
element without its child elements, `Visits.element` for all of it, and `Visits.roots` for a template.
The induction is on the tree, in the two parts of the walk: a node, and the nodes of a list.

That a place is visited rests on `Visits.site`: a site is compiled, and then its answer is recorded as
an edit. What else the walk does at an element, to report a plain attribute or to check the required
props, records nothing that a trail shows.

**What it does not establish.** The lemmas do not say in which environment a site is compiled; a visit
has the progress that it starts from, and nothing here says what the scopes of that are.
-/

namespace Stencil

open Markup (Attribute Element Node)
open Compile

namespace Visits

variable {job : Job}

/-- Compiling a site, and then doing what records what the visit changes, is one visit. -/
theorem site (place : Place) (s : BindingSite) (written : String) (render : String → String)
    (finish : String → Compile Unit) {p : Progress}
    (hfits : ∀ text expression?, Visit.Fits ⟨place, p, s, written, text, expression?, render text⟩)
    (hfinish : ∀ text expression? q, ∃ r, (finish text).exec q = (.ok (), r) ∧
      r.context = q.context ∧ r.result.expressions = q.result.expressions ∧
      r.edits = q.edits ++
        (Visit.edit? ⟨place, p, s, written, text, expression?, render text⟩).toList) :
    Visited job [place] p ((Compile.site job s written >>= finish).exec p) ∧
      ((Compile.site job s written >>= finish).exec p).2.context = p.context := by
  obtain ⟨expression?, hrun⟩ := exec_site job s written p
  rcases h : (Compile.site job s written).exec p with ⟨answer, q⟩
  rw [h] at hrun
  -- A site that fails has added no expression, so no place has been visited.
  cases answer with
  | error error =>
    rw [exec_bind_of_error h]
    have hnone := hrun.failed error rfl
    exact ⟨.error hrun.edits (by simpa [hnone] using hrun.expressions), hrun.context⟩
  | ok text =>
    obtain ⟨r, hr, hcontext, hexpressions, hedits⟩ := hfinish text expression? q
    rw [exec_bind_of_ok h, hr]
    refine ⟨⟨[⟨place, p, s, written, text, expression?, render text⟩], ⟨?_, ?_, ?_, ?_⟩,
      List.prefix_rfl, fun _ _ => rfl⟩, hcontext.trans hrun.context⟩
    · intro w hw
      obtain rfl := List.mem_singleton.1 hw
      exact ⟨hfits text expression?, q, hrun, h⟩
    · rw [hedits, hrun.edits, List.filterMap_cons, List.filterMap_nil]
      split <;> simp_all
    · rw [hexpressions, hrun.expressions, List.filterMap_cons, List.filterMap_nil]
      cases expression? <;> rfl
    · intro us w ws heq
      cases us with
      | nil =>
        obtain ⟨rfl, -⟩ := List.cons.inj heq
        exact (List.append_nil _).symm
      | cons u us => simp at heq

/-! ## Texts -/

/-- An interpolation is one place. -/
theorem marker (offset : Nat) (m : Markup.Marker) :
    Visits job [.marker offset m] (Compile.marker job offset m) := by
  intro p
  let finish (text : String) : Compile Unit :=
    if text != Text.trimString (String.ofList m.inside) then
      edit ⟨m.span offset, (" " ++ text ++ " ").toList⟩
    else Pure.pure ()
  refine (site (.marker offset m) ⟨none, none, .string, m.span offset⟩ (String.ofList m.inside) id
    finish (fun text expression? => ⟨rfl, rfl, rfl⟩) ?_).1
  intro text expression? q
  by_cases h : text = Text.trimString (String.ofList m.inside)
  · exact ⟨q, by simp [finish, h], rfl, rfl, by simp [Visit.edit?, h]⟩
  · have hedit : finish text = edit ⟨m.span offset, (" " ++ text ++ " ").toList⟩ :=
      if_pos (by simpa using h)
    rw [hedit]
    exact ⟨_, exec_edit _ q, rfl, rfl, by simp [Visit.edit?, h]⟩

/-- The interpolations of a text, in their order. -/
theorem markers (value : String) (span : Span) :
    Visits job ((Markup.markers value.toList).map (.marker span.start))
      (Compile.markers job value span) := by
  rw [List.map_eq_flatMap]
  exact .forM (marker span.start) _

/-- The texts among the nodes. -/
theorem texts (nodes : List Node) :
    Visits job (Markup.textPlaces nodes)
      ((Markup.childTexts nodes).forM fun (value, span) => Compile.markers job value span) :=
  .forM (fun ⟨value, span⟩ => markers value span) _

/-! ## Attributes -/

/-- Giving an attribute its new value leaves the edit of that value, and nothing else. -/
theorem exec_setValue (a : Attribute) (text : String) (p : Progress) :
    ∃ q, (setValue a text).exec p = (.ok (), q) ∧ q.context = p.context ∧
      q.result.expressions = p.result.expressions ∧
      q.edits = p.edits ++ (valueEdit? a text).toList := by
  unfold setValue valueEdit?
  cases a.valueSpan with
  | none => exact ⟨p, rfl, rfl, rfl, by simp⟩
  | some span =>
    by_cases h : text = a.value
    · exact ⟨p, by simp [h], rfl, rfl, by simp [h]⟩
    · simp only [if_neg h]
      exact ⟨_, exec_edit _ p, rfl, rfl, rfl⟩

/-- A loop definition is one place: its iterable is compiled, and the definition is put together
again. -/
theorem loop (e : Element) (a : Attribute) : Visits job [.loop e a] (Compile.loop job a) := by
  intro p
  unfold Compile.loop
  rw [exec_bind_of_ok (exec_context p)]
  cases hparse : LoopDefinition.parse p.context a.value with
  | error error => exact .error rfl rfl
  | ok definition =>
    obtain ⟨q, hq, hcontext, hedits, hexpressions⟩ : ∃ q,
        (Compile.modifyContext (·.declareAll definition.declared)).exec p = (.ok (), q) ∧
        q.context = p.context.declareAll definition.declared ∧ q.edits = p.edits ∧
        q.result.expressions = p.result.expressions := ⟨_, rfl, rfl, rfl, rfl⟩
    obtain ⟨r, hr, hcontext', hedits', hexpressions'⟩ :=
      silent_say .debug s!"Entered loop scope with {definition.head}" q
    have hvisited : Visited job [.loop e a] r ((Compile.site job
        ⟨some .loop, none, definition.iterableType, valueSpan a⟩ definition.iterable >>= fun text =>
          setValue a (definition.render text)).exec r) := by
      refine (site (.loop e a) _ definition.iterable definition.render _ ?_
        fun text expression? q => exec_setValue a (definition.render text) q).1
      intro text expression?
      rw [Visit.Fits]
      exact ⟨p.context, definition, hparse, hcontext'.trans hcontext, rfl, rfl, rfl⟩
    dsimp only
    rw [exec_bind_of_ok hq, exec_bind_of_ok hr]
    exact hvisited.start (hedits'.trans hedits) (hexpressions'.trans hexpressions)

/-- A plain attribute is at most reported. -/
theorem silent_plain {kind : AttributeKind} (hkind : kind = .plain) (prop : Option DeclaredProp)
    (a : Attribute) : Silent (Compile.value job kind prop a) := by
  unfold Compile.value
  rw [if_pos hkind]
  cases prop with
  | none => exact silent_pure
  | some prop =>
    simp only
    split
    · exact silent_report _ _ _ _
    · exact silent_pure

/-- An attribute that is a site is visited, with the prop that it passes in the context that the step
starts from. -/
theorem value {e : Element} {a : Attribute} {p : Progress} {prop : Option DeclaredProp}
    (hsite : a.isSite = true)
    (hprop : prop = passedProp? p.context (childOf? p.context e) a) :
    Visited job [.value e a] p
        ((Compile.value job (AttributeKind.ofName a.name) prop a).exec p) ∧
      ((Compile.value job (AttributeKind.ofName a.name) prop a).exec p).2.context = p.context := by
  have hkind : AttributeKind.ofName a.name ≠ .plain := by
    intro hplain
    simp [Attribute.isSite, hplain] at hsite
  unfold Compile.value
  rw [if_neg hkind]
  refine site (.value e a) _ a.value id _ ?_ fun text expression? q => exec_setValue a text q
  intro text expression?
  rw [Visit.Fits]
  exact ⟨hsite, by rw [hprop], rfl, rfl⟩

/-- The loop definition and the model binding are not compiled among the attributes. -/
theorem attributes_cons_skip {child : Option ChildComponent} {a : Attribute} {as : List Attribute}
    (h : AttributeKind.ofName a.name = .loop ∨ AttributeKind.ofName a.name = .model) :
    Compile.attributes job child (a :: as) = Compile.attributes job child as := by
  rw [Compile.attributes]
  rcases h with h | h <;> rw [h]

/-- Any other attribute is compiled before those behind it. -/
theorem attributes_cons {child : Option ChildComponent} {a : Attribute} {as : List Attribute}
    (hloop : AttributeKind.ofName a.name ≠ .loop) (hmodel : AttributeKind.ofName a.name ≠ .model) :
    Compile.attributes job child (a :: as) = (do
      let ctx ← Compile.context
      Compile.value job (AttributeKind.ofName a.name) (passedProp? ctx child a) a
      let names ← Compile.attributes job child as
      return ((passedProp? ctx child a).map (·.name)).toList ++ names) := by
  rw [Compile.attributes]
  cases h : AttributeKind.ofName a.name with
  | loop => exact absurd h hloop
  | model => exact absurd h hmodel
  | event | propertyBinding | conditional | directive | plain => rfl

/-- The attributes of an element, its loop definition apart. -/
theorem attributes {e : Element} (as : List Attribute) {p : Progress}
    {child : Option ChildComponent} (hchild : child = childOf? p.context e) :
    Visited job ((as.filter (·.isSite)).map (.value e)) p
      ((Compile.attributes job child as).exec p) := by
  induction as generalizing p with
  | nil => exact .nil rfl rfl
  | cons a as ih =>
    by_cases hskip : AttributeKind.ofName a.name = .loop ∨ AttributeKind.ofName a.name = .model
    · have hno : ¬ a.isSite = true := by rcases hskip with h | h <;> simp [Attribute.isSite, h]
      rw [attributes_cons_skip hskip, List.filter_cons_of_neg hno]
      exact ih hchild
    · rw [not_or] at hskip
      rw [attributes_cons hskip.1 hskip.2, exec_bind_of_ok (exec_context p)]
      have hprop : passedProp? p.context child a = passedProp? p.context (childOf? p.context e) a := by
        rw [hchild]
      generalize passedProp? p.context child a = prop at hprop ⊢
      -- Compiling the rest starts in the same context, whatever the first attribute has left.
      have hrest {q : Progress} (hcontext : q.context = p.context) :
          Visited job ((as.filter (·.isSite)).map (.value e)) q
            ((Compile.attributes job child as >>= fun names =>
              Pure.pure ((prop.map (·.name)).toList ++ names)).exec q) := by
        rw [← List.append_nil ((as.filter (·.isSite)).map _)]
        exact (ih (hchild.trans (by rw [hcontext]))).bind fun _ _ _ => .nil rfl rfl
      by_cases hsite : a.isSite = true
      · obtain ⟨hvisited, hcontext⟩ : Visited job [.value e a] p _ ∧ _ := value hsite hprop
        rw [List.filter_cons_of_pos hsite, List.map_cons]
        refine hvisited.bind fun u q hq => hrest ?_
        rwa [hq] at hcontext
      · have hplain : AttributeKind.ofName a.name = .plain := by
          cases h : AttributeKind.ofName a.name with
          | plain => rfl
          | loop => exact absurd h hskip.1
          | model => exact absurd h hskip.2
          | event | propertyBinding | conditional | directive => simp [Attribute.isSite, h] at hsite
        rw [List.filter_cons_of_neg hsite]
        have hsilent : Silent (Compile.value job _ prop a) := silent_plain hplain prop a
        obtain ⟨q, hq, hcontext, hedits, hexpressions⟩ := hsilent p
        rw [exec_bind_of_ok hq]
        exact (hrest hcontext).start hedits hexpressions

/-! ## Elements -/

/-- Missing props are at most reported. -/
theorem silent_checkRequiredProps (child : ChildComponent) (passed : List String) (e : Element) :
    Silent (checkRequiredProps job child passed e) := by
  unfold checkRequiredProps
  extract_lets missing
  split
  · exact silent_report _ _ _ _
  · exact silent_pure

/-- An element without its loop definition and its child elements. -/
theorem own (e : Element) (children : List Node) :
    Visits job ((e.attributes.filter (·.isSite)).map (.value e) ++ Markup.textPlaces children)
      (Compile.own job e children) := by
  intro p
  unfold Compile.own
  rw [exec_bind_of_ok (exec_context p)]
  refine (attributes e.attributes rfl).bind fun passed q _ => ?_
  cases childOf? p.context e with
  | none => exact texts children q
  | some child =>
    exact ((Visits.silent (silent_checkRequiredProps child passed e)).bind fun _ =>
      texts children) q

/-- An element with a loop is compiled in a scope of its own. -/
theorem element_loop {e : Element} {children : List Node} {a : Attribute}
    (himport : ¬ isImport job.settings e = true) (ha : e.attribute? "v-for" = some a) :
    Compile.element job (.element e children) = Compile.inScope (do
      Compile.loop job a
      Compile.own job e children
      Compile.elements job children) := by
  rw [Compile.element, if_neg himport, ha]

/-- An element without a loop is compiled in the scope that is there. -/
theorem element_plain {e : Element} {children : List Node}
    (himport : ¬ isImport job.settings e = true) (ha : e.attribute? "v-for" = none) :
    Compile.element job (.element e children) = (do
      Compile.own job e children
      Compile.elements job children) := by
  rw [Compile.element, if_neg himport, ha]

mutual

/-- An element: its loop definition, its other attributes, its texts, and then its child elements. -/
theorem element (node : Node) :
    Visits job (node.places job.settings) (Compile.element job node) := by
  cases node with
  | text value span => exact .pure ()
  | comment value span => exact .pure ()
  | element e children =>
    rw [Markup.Node.places]
    by_cases himport : isImport job.settings e = true
    · rw [Compile.element, if_pos himport, if_pos himport]
      exact .pure ()
    · rw [if_neg himport, Markup.Element.places]
      have hown : Visits job _ (Compile.own job e children) := own e children
      have hbelow := hown.bind fun _ => elements children
      cases ha : e.attribute? "v-for" with
      | some a =>
        rw [element_loop himport ha]
        have hloop : Visits job _ (Compile.loop job a) := loop e a
        simpa using (hloop.bind fun _ => hbelow).inScope
      | none =>
        rw [element_plain himport ha]
        simpa using hbelow

/-- The elements among the nodes. -/
theorem elements (nodes : List Node) :
    Visits job (Markup.places job.settings nodes) (Compile.elements job nodes) := by
  cases nodes with
  | nil => exact .pure ()
  | cons node nodes =>
    rw [Markup.places, Compile.elements]
    exact (element node).bind fun _ => elements nodes

end

/-- The whole walk. -/
theorem roots (nodes : List Node) :
    Visits job (Markup.rootPlaces job.settings nodes) (Compile.roots job nodes) := by
  induction nodes with
  | nil => exact .pure ()
  | cons node nodes ih =>
    rw [Markup.rootPlaces, List.flatMap_cons]
    cases node with
    | text value span =>
      rw [Compile.roots, Markup.Node.places, List.append_nil]
      have htext : Visits job (Markup.textPlaces [.text value span])
          (Compile.markers job value span) := by
        have hmarkers : Visits job _ (Compile.markers job value span) := markers value span
        simpa [Markup.textPlaces, Markup.childTexts] using hmarkers
      exact htext.bind fun _ => ih
    | comment value span =>
      rw [Compile.roots]
      · exact (element (.comment value span)).bind fun _ => ih
      · rintro _ _ ⟨⟩
    | element e children =>
      rw [Compile.roots]
      · exact (element (.element e children)).bind fun _ => ih
      · rintro _ _ ⟨⟩

end Visits

end Stencil
