import Stencil.Proofs.Compile.Afterwards
import Stencil.Proofs.Compile.ReturnType
import Stencil.Proofs.Context.Closed

/-!
# The arguments of generated calls

A call that stands in a processed template passes variables to generated code, and they should be
there where the call stands: the variables of the loops around it, and in an event binding the event.
A loop goes through its iterable before it declares anything, so the iterable is not inside of the
loop.

**The law** (`arguments_available_iff`): each expression of a compile was entered at a stop of its
own, and all that it passes is a variable of a loop of the element or of an ancestor, or the event
parameter. All of this is there exactly if the event parameter is named in event bindings only, and an
iterable names no variable of its own loop that is not one of an outer loop as well.

A compile looks at names only, and not at what kind of place they stand in. So the two exceptions are
real: the event parameter is passed wherever there is a cast in front of it, and an iterable is passed
the variables of its own loop (`unavailable_arguments_passed`).

Each expression is traced to its stop (`exec_sourceByStops`), in the environment that the stop has;
what is passed there is a matter of one expression (`Place.Enters.provides_iff`).

**What it does not establish.** The initial context is without variables: what a caller declares in
front of a compile is passed like the variables of a loop, and nothing in the template makes it
available.
-/

namespace Stencil

open Markup (Attribute Element Node)

/-! ## What is there at a stop -/

/-- The text of the expression at a place. That of a loop is part of its definition. -/
def Place.Writes (env : Context) (text : String) : Place → Prop
  | .loop _ a => ∃ definition, LoopDefinition.parse env a.value = .ok definition ∧
      text = definition.iterable
  | .value _ a => text = a.value
  | .marker _ m => text = String.ofList m.inside

/-- The expression was entered for a place in the environment `env`: the text of the place is the
tree, and that resolves without a problem. -/
structure Place.Enters (job : Job) (env : Context) (place : Place) (tree : Expr) (r : Resolution)
    (entry : TemplateExpression) : Prop where
  parsed : ∃ text, place.Writes env text ∧ Expr.parse (Text.trimString text) = .ok tree
  resolved : ∃ takesCast, r = env.resolve job.settings.eventParameter takesCast tree
  problems : r.problems = []
  text : entry.text = r.expression.print
  parameters : entry.parameters = Parameter.ofVariables r.parameters

namespace Stop

/-- The loops that a place is inside of. A loop definition is not inside of its own loop. -/
def around (s : Stop) : List Attribute :=
  match s.task with
  | .site (.loop ..) => s.loops.dropLast
  | .site (.value ..) | .site (.marker ..) | .plain .. | .required _ => s.loops

/-- A loop definition is inside of the loops outside of its own. -/
theorem around_of_loop (s : Stop) {d : Element} {a : Attribute} {outer : List Attribute}
    (htask : s.task = .site (.loop d a)) (hloops : s.loops = outer ++ [a]) : s.around = outer := by
  unfold around
  rw [htask]
  simp [hloops]

/-- Any other place is inside of all loops of its stop. -/
theorem around_of_not_loop (s : Stop) (h : ¬ ∃ d a, s.task = .site (.loop d a)) :
    s.around = s.loops := by
  unfold around
  split
  · next d a htask => exact absurd ⟨d, a, htask⟩ h
  · rfl
  · rfl
  · rfl
  · rfl

/-- Whether the place is an event binding. -/
def isEvent (s : Stop) : Bool :=
  match s.task with
  | .site (.value _ a) => AttributeKind.ofName a.name == .event
  | .site (.loop ..) | .site (.marker ..) | .plain .. | .required _ => false

/-- The variable is there when the place is evaluated: it is the event, or declared by a loop that the
place is inside of. -/
def Provides (base : Context) (s : Stop) (v : Variable) : Prop :=
  match v.origin with
  | .eventParameter => s.isEvent = true
  | .loopLocal | .property | .method => ∃ a ∈ s.around, v ∈ base.loopScope a

end Stop

/-! ## What a stop enters -/

namespace Compile

variable {α β : Type} {job : Job} {env : Context} {place : Place}

/-- Started in the environment, the step adds at most one expression to the result, and that was
entered for the place. -/
def Adds (job : Job) (env : Context) (place : Place) (m : Compile α) : Prop :=
  ∀ p, p.context = env → ∃ found? : Option TemplateExpression,
    (m.exec p).2.result.expressions = p.result.expressions ++ found?.toList ∧
      ∀ entry, found? = some entry → ∃ tree r, place.Enters job env tree r entry

/-- A step that records nothing adds no expression. -/
theorem Silent.adds {m : Compile Unit} (h : Silent m) : Adds job env place m := by
  intro p _
  obtain ⟨q, hq, -, -, hexpressions⟩ := h p
  refine ⟨none, ?_, nofun⟩
  rw [hq, Option.toList_none, List.append_nil, hexpressions]

/-- What adds no expression may follow. -/
theorem Adds.bind {m : Compile α} {f : α → Compile β} (h : Adds job env place m)
    (hf : ∀ a p, ((f a).exec p).2.result.expressions = p.result.expressions) :
    Adds job env place (m >>= f) := by
  intro p hp
  obtain ⟨found?, hexpressions, henters⟩ := h p hp
  refine ⟨found?, ?_, henters⟩
  rw [← hexpressions, exec_bind]
  rcases m.exec p with ⟨answer, q⟩
  cases answer with
  | error error => rfl
  | ok a => exact hf a q

/-- Nothing is entered before the text of the site is compiled. -/
theorem Adds.after {m : Compile Unit} {n : Compile α} (hm : Silent m) (h : Adds job env place n) :
    Adds job env place (m >>= fun _ => n) := by
  intro p hp
  obtain ⟨q, hq, hcontext, -, hexpressions⟩ := hm p
  rw [exec_bind_of_ok hq, ← hexpressions]
  exact h q (hcontext.trans hp)

/-- Compiling a site adds the expression of its text, if any. -/
theorem adds_site {written : String} (s : BindingSite) (h : place.Writes env written) :
    Adds job env place (site job s written) := by
  intro p hp
  obtain ⟨found?, hrun⟩ := exec_site job s written p
  refine ⟨found?, hrun.expressions, fun entry hentry => ?_⟩
  obtain ⟨tree, hparse, hproblems, rfl⟩ := hrun.entered entry hentry
  rw [hp] at hproblems ⊢
  exact ⟨tree, _, ⟨written, h, hparse⟩, ⟨_, rfl⟩, hproblems, rfl, rfl⟩

/-- Giving an attribute its new value adds no expression. -/
theorem expressions_setValue (a : Attribute) (text : String) (p : Progress) :
    ((setValue a text).exec p).2.result.expressions = p.result.expressions := by
  obtain ⟨q, hq, -, hexpressions, -⟩ := Visits.exec_setValue a text p
  rw [hq, hexpressions]

/-- Compiling the expression at a place. -/
theorem adds_placeStep (env : Context) (place : Place) :
    Adds job env place (placeStep job env place) := by
  cases place with
  | loop e a =>
    rw [placeStep]
    cases hparse : LoopDefinition.parse env a.value with
    | error error =>
      intro p _
      exact ⟨none, (List.append_nil _).symm, by rintro _ ⟨⟩⟩
    | ok definition =>
      have hsite : Adds job env (.loop e a) (site job
          ⟨some .loop, none, definition.iterableType, valueSpan a⟩ definition.iterable) :=
        adds_site _ ⟨definition, hparse, rfl⟩
      exact (hsite.bind fun text p => expressions_setValue a _ p).after (silent_say _ _)
  | value e a =>
    rw [placeStep]
    by_cases hplain : AttributeKind.ofName a.name = .plain
    · exact (Visits.silent_plain hplain _ a).adds
    · unfold value
      rw [if_neg hplain]
      have hsite (s : BindingSite) : Adds job env (.value e a) (site job s a.value) :=
        adds_site s rfl
      exact (hsite _).bind fun text p => expressions_setValue a text p
  | marker offset m =>
    have hsite (s : BindingSite) :
        Adds job env (.marker offset m) (site job s (String.ofList m.inside)) := adds_site s rfl
    refine (hsite _).bind fun text p => ?_
    split <;> rfl

/-- Doing a task. Only the tasks at places enter something. -/
theorem exec_taskStep (env : Context) (task : Task) {p : Progress} (hp : p.context = env) :
    ∃ found? : Option TemplateExpression,
      ((taskStep job env task).exec p).2.result.expressions =
        p.result.expressions ++ found?.toList ∧
      ∀ entry, found? = some entry → ∃ place tree r, task = .site place ∧
        place.Enters job env tree r entry := by
  have hsilent {m : Compile Unit} (hm : Silent m) : ∃ found? : Option TemplateExpression,
      (m.exec p).2.result.expressions = p.result.expressions ++ found?.toList ∧
      ∀ entry, found? = some entry → ∃ place tree r, task = .site place ∧
        place.Enters job env tree r entry := by
    obtain ⟨q, hq, -, -, hexpressions⟩ := hm p
    exact ⟨none, by rw [hq, hexpressions]; simp, nofun⟩
  cases task with
  | site place =>
    obtain ⟨found?, hexpressions, henters⟩ := adds_placeStep env place p hp
    refine ⟨found?, hexpressions, fun entry hentry => ?_⟩
    obtain ⟨tree, r, h⟩ := henters entry hentry
    exact ⟨place, tree, r, rfl, h⟩
  | plain e a => exact hsilent (Visits.silent_plain rfl _ a)
  | required e =>
    apply hsilent
    rw [taskStep]
    split
    · exact Visits.silent_checkRequiredProps _ _ e
    · exact silent_pure

/-- Going from stop to stop: each expression was entered at a stop of its own, in the order of the
stops, and in the environment of the stop. -/
theorem exec_follow (base : Context) (stops : List Stop) (p : Progress) :
    ∃ entries : List (Stop × TemplateExpression), (entries.map (·.1)).Sublist stops ∧
      ((follow job base stops).exec p).2.result.expressions =
        p.result.expressions ++ entries.map (·.2) ∧
      ∀ e ∈ entries, ∃ place tree r, e.1.task = .site place ∧
        place.Enters job (base.within e.1.loops) tree r e.2 := by
  -- By induction on the stops: those behind the first one start from what it has entered.
  induction stops generalizing p with
  | nil =>
    exact ⟨[], List.Sublist.refl _, (List.append_nil _).symm, List.forall_mem_nil _⟩
  | cons stop stops ih =>
    obtain ⟨found?, hfirst, henters⟩ := exec_taskStep (base.within stop.loops) stop.task
      (show Progress.context { p with context := base.within stop.loops } = _ from rfl)
    rw [follow_cons]
    rcases hstep : (inEnvironment (base.within stop.loops)
      (taskStep job (base.within stop.loops) stop.task)).exec p with ⟨answer, q⟩
    have hq : q.result.expressions = p.result.expressions ++ found?.toList := by
      rw [exec_inEnvironment] at hstep
      obtain ⟨-, rfl⟩ := Prod.mk.inj hstep
      exact hfirst
    obtain ⟨added, hstops, hadded, hentries⟩ : ∃ added : List (Stop × TemplateExpression),
        (added.map (·.1)).Sublist [stop] ∧ added.map (·.2) = found?.toList ∧
        ∀ e ∈ added, ∃ place tree r, e.1.task = .site place ∧
          place.Enters job (base.within e.1.loops) tree r e.2 := by
      refine ⟨found?.toList.map fun entry => (stop, entry), ?_, ?_, ?_⟩
      · cases found? <;> simp
      · cases found? <;> rfl
      · intro e he
        obtain ⟨entry, hentry, rfl⟩ := List.mem_map.1 he
        exact henters entry (Option.mem_toList.1 hentry)
    cases answer with
    | error error =>
      rw [exec_bind_of_error hstep]
      refine ⟨added, hstops.trans (List.sublist_append_left [stop] stops), ?_, hentries⟩
      rw [hq, hadded]
    | ok a =>
      obtain ⟨entries, hsublist, hexpressions, hrest⟩ := ih q
      rw [exec_bind_of_ok hstep]
      refine ⟨added ++ entries, ?_, ?_, ?_⟩
      · rw [List.map_append]
        exact hstops.append hsublist
      · rw [hexpressions, hq, List.append_assoc, List.map_append, hadded]
      · intro e he
        rcases List.mem_append.1 he with he | he
        · exact hentries e he
        · exact hrest e he

/-- A compile from stop to stop. What it knows besides the initial context are the imports of the
settings and of the template. -/
theorem exec_sourceByStops (job : Job) (ctx : Context) :
    ∃ entries : List (Stop × TemplateExpression),
      (entries.map (·.1)).Sublist (Markup.rootStops job.settings
        (Markup.Tree.ofSource job.file.content).nodes) ∧
      ((sourceByStops job ctx).exec { context := ctx }).2.result.expressions =
        entries.map (·.2) ∧
      ∀ e ∈ entries, ∃ place tree r, e.1.task = .site place ∧
        place.Enters job ((ctx.prepared job.settings (importElements job.settings
          (Markup.Tree.ofSource job.file.content).nodes)).within e.1.loops) tree r e.2 := by
  unfold sourceByStops sourceBy
  rw [exec_bind_of_ok (exec_modifyContext _ _)]
  obtain ⟨q, hq, -, -, hexpressions⟩ := silent_forM silent_reportMarkup
    (Markup.Tree.ofSource job.file.content).errors
    { context := job.settings.implicitImports.foldl Context.addImplicitImport ctx }
  rw [exec_bind_of_ok hq]
  obtain ⟨p, hp, -, hexpressions'⟩ := exec_imports
    (importElements job.settings (Markup.Tree.ofSource job.file.content).nodes) q
  rw [exec_bind_of_ok hp, bind_assoc, exec_bind_of_ok (exec_context p), prepared_of_front hq hp]
  obtain ⟨entries, hsublist, hfollow, hentries⟩ := exec_follow
    (ctx.prepared job.settings
      (importElements job.settings (Markup.Tree.ofSource job.file.content).nodes))
    (Markup.rootStops job.settings (Markup.Tree.ofSource job.file.content).nodes) p
  refine ⟨entries, hsublist, ?_, hentries⟩
  rw [hexpressions', hexpressions, List.nil_append] at hfollow
  rw [← hfollow, exec_bind]
  split
  · next h => rw [h]; rfl
  · next h => rw [h]

end Compile

/-! ## What is passed -/

namespace Context

variable {base : Context} {loops : List Attribute} {a : Attribute} {n : String} {v : Variable}

/-- What a loop declares is a loop variable. -/
theorem origin_of_mem_loopScope (h : v ∈ base.loopScope a) : v.origin = .loopLocal := by
  unfold loopScope at h
  split at h
  · next definition hparse =>
    unfold LoopDefinition.parse at hparse
    split at hparse
    · obtain rfl := Except.ok.inj hparse
      obtain ⟨declared, -, rfl⟩ := List.mem_map.1 (List.mem_reverse.1 h)
      rfl
    · cases hparse
  · cases h

/-- When there are no scopes but those of the loops, what is captured is declared by one of them. -/
theorem mem_loopScope_of_find? (hinner : base.inner = []) (hroot : base.root = [])
    (h : (base.within loops).find? n = some v) (hcaptured : v.isCaptured = true) :
    ∃ a ∈ loops, v ∈ base.loopScope a := by
  have hscopes : (base.within loops).scopes = (loops.map base.loopScope).reverse ++ [[]] := by
    simp [scopes, within, hinner, hroot]
  unfold find? at h
  rw [hscopes] at h
  split at h
  · next found hfound =>
    obtain rfl := Option.some.inj h
    obtain ⟨scope, hscope, hv⟩ := List.exists_of_findSome?_eq_some hfound
    have hmem : found ∈ scope := List.mem_of_find?_eq_some hv
    rcases List.mem_append.1 hscope with hscope | hscope
    · obtain ⟨a, ha, rfl⟩ := List.mem_map.1 (List.mem_reverse.1 hscope)
      exact ⟨a, ha, hmem⟩
    · obtain rfl := List.mem_singleton.1 hscope
      cases hmem
  · split at h
    · obtain rfl := Option.some.inj h
      cases hcaptured
    · split at h
      · obtain rfl := Option.some.inj h
        cases hcaptured
      · cases h

end Context

section

variable {job : Job} {base : Context} {s : Stop} {place : Place} {tree : Expr} {r : Resolution}
  {entry : TemplateExpression} {v : Variable}

/-- What is passed is the event parameter, or a variable of a loop of the stop. -/
theorem Place.Enters.passes (h : place.Enters job (base.within s.loops) tree r entry)
    (hinner : base.inner = []) (hroot : base.root = []) (hv : v ∈ r.parameters) :
    v.name = job.settings.eventParameter ∧ v.origin = .eventParameter ∨
      ∃ a ∈ s.loops, v ∈ base.loopScope a := by
  obtain ⟨takesCast, rfl⟩ := h.resolved
  rcases Context.mem_parameters.1 hv with ⟨type, -, rfl⟩ | ⟨-, -, -, hfind, hcaptured⟩
  · exact .inl ⟨rfl, rfl⟩
  · exact .inr (Context.mem_loopScope_of_find? hinner hroot hfind hcaptured)

/-- A name that the innermost loop declares stands for its variable, which is passed. -/
theorem Place.Enters.mem_parameters (h : place.Enters job (base.within s.loops) tree r entry)
    {a : Attribute} {outer : List Attribute} {n : String} (houter : s.loops = outer ++ [a])
    (hn : n ∈ tree.names) (hne : n ≠ job.settings.eventParameter)
    (hknows : base.imports.knows n = false) (hv : (base.loopScope a).find? n = some v) :
    v ∈ r.parameters := by
  obtain ⟨takesCast, rfl⟩ := h.resolved
  obtain rfl := Scope.name_of_find? hv
  have hfind : (base.within s.loops).find? v.name = some v := by
    rw [houter, Context.find?_within_concat, hv]
    rfl
  have horigin := Context.origin_of_mem_loopScope (List.mem_of_find?_eq_some hv)
  refine Context.mem_parameters.2 (.inr ⟨hn, hne, hknows, hfind, ?_⟩)
  simp [Variable.isCaptured, horigin]

/-- What is captured at a stop is declared by a loop that the place is inside of, or by the own loop of
an iterable. -/
theorem Stop.around_or_own {n : String} (hinner : base.inner = []) (hroot : base.root = [])
    (hloops : ∀ d a, s.task = .site (.loop d a) → ∃ outer, s.loops = outer ++ [a])
    (hfind : (base.within s.loops).find? n = some v) (hcaptured : v.isCaptured = true) :
    (∃ b ∈ s.around, v ∈ base.loopScope b) ∨
      ∃ d a, s.task = .site (.loop d a) ∧ (base.loopScope a).find? n = some v := by
  by_cases hloop : ∃ d a, s.task = .site (.loop d a)
  · obtain ⟨d, a, htask⟩ := hloop
    obtain ⟨outer, houter⟩ := hloops d a htask
    rw [houter, Context.find?_within_concat] at hfind
    cases hown : (base.loopScope a).find? n with
    | some w =>
      rw [hown] at hfind
      exact .inr ⟨d, a, htask, hown.trans hfind⟩
    | none =>
      rw [hown, Option.none_or] at hfind
      rw [s.around_of_loop htask houter]
      exact .inl (Context.mem_loopScope_of_find? hinner hroot hfind hcaptured)
  · rw [s.around_of_not_loop hloop]
    exact .inl (Context.mem_loopScope_of_find? hinner hroot hfind hcaptured)

/-- A loop variable is there exactly inside of its loop. -/
theorem Stop.provides_loopLocal (h : v.origin = .loopLocal) :
    s.Provides base v ↔ ∃ b ∈ s.around, v ∈ base.loopScope b := by
  simp [Stop.Provides, h]

/-- All that is passed is there if and only if the event is named in an event binding only, and an
iterable names no variable that only its own loop declares. -/
theorem Place.Enters.provides_iff (h : place.Enters job (base.within s.loops) tree r entry)
    (hinner : base.inner = []) (hroot : base.root = [])
    (hloops : ∀ d a, s.task = .site (.loop d a) → ∃ outer, s.loops = outer ++ [a]) :
    (∀ v ∈ r.parameters, s.Provides base v) ↔
      (job.settings.eventParameter ∈ tree.names → s.isEvent = true) ∧
      ∀ d a, s.task = .site (.loop d a) → ∀ n ∈ tree.names, n ≠ job.settings.eventParameter →
        base.imports.knows n = false → ∀ v, (base.loopScope a).find? n = some v →
          ∃ b ∈ s.around, v ∈ base.loopScope b := by
  obtain ⟨takesCast, hresolved⟩ := h.resolved
  have hproblems := h.problems
  rw [hresolved] at hproblems
  -- What is passed for the event is there in an event binding; all else is declared by a loop of the
  -- stop.
  constructor
  · intro hprovides
    refine ⟨fun hevent => ?_, ?_⟩
    · obtain ⟨type, hmem⟩ := Context.event_mem_parameters hproblems hevent
      exact hprovides _ (hresolved ▸ hmem)
    · intro d a htask n hn hne hknows v hv
      obtain ⟨outer, houter⟩ := hloops d a htask
      have horigin := Context.origin_of_mem_loopScope (List.mem_of_find?_eq_some hv)
      exact (Stop.provides_loopLocal horigin).1
        (hprovides v (h.mem_parameters houter hn hne hknows hv))
  · rintro ⟨hevent, hown⟩ v hv
    rcases Context.mem_parameters.1 (hresolved ▸ hv) with
      ⟨type, huse, rfl⟩ | ⟨hn, hne, hknows, hfind, hcaptured⟩
    · refine hevent ?_
      rw [← tree.map_name_bareNames none]
      exact List.mem_map_of_mem huse
    · obtain ⟨a, -, hmem⟩ := Context.mem_loopScope_of_find? hinner hroot hfind hcaptured
      rw [Stop.provides_loopLocal (Context.origin_of_mem_loopScope hmem)]
      rcases Stop.around_or_own hinner hroot hloops hfind hcaptured with hthere | ⟨d, b, htask, hv⟩
      · exact hthere
      · exact hown d b htask _ hn hne hknows _ hv

end

/-- In a compile that starts without variables, each expression was entered at a stop of its own, in the
initial context with the imports of the settings and of the template in it. Its arguments are the event
parameter and variables of the loops that the stop is in; and they are all there when the place is
evaluated, if and only if the event is named in an event binding only, and an iterable names no
variable that only its own loop declares. -/
theorem arguments_available_iff {settings : Settings} {url template : String} {ctx : Context}
    {c : Compiled} (hinner : ctx.inner = []) (hroot : ctx.root = [])
    (h : (compileTemplate settings url template ctx).answer = .ok c) :
    let base : Context := ctx.prepared settings (importsOf settings template)
    ∃ entries : List (Stop × TemplateExpression),
      (entries.map (·.1)).Sublist
        (Markup.rootStops settings (Markup.Tree.ofSource template.toList).nodes) ∧
      c.expressions = entries.map (·.2) ∧
      ∀ e ∈ entries, ∃ place tree r, e.1.task = .site place ∧
        place.Enters ⟨settings, ⟨url, template.toList⟩⟩ (base.within e.1.loops) tree r e.2 ∧
        (∀ v ∈ r.parameters, v.name = settings.eventParameter ∧ v.origin = .eventParameter ∨
          ∃ a ∈ e.1.loops, v ∈ base.loopScope a) ∧
        ((∀ v ∈ r.parameters, e.1.Provides base v) ↔
          (settings.eventParameter ∈ tree.names → e.1.isEvent = true) ∧
          ∀ d a, e.1.task = .site (.loop d a) → ∀ n ∈ tree.names, n ≠ settings.eventParameter →
            base.imports.knows n = false → ∀ v, (base.loopScope a).find? n = some v →
              ∃ b ∈ e.1.around, v ∈ base.loopScope b) := by
  intro base
  obtain ⟨entries, hsublist, hexpressions, hentries⟩ :=
    Compile.exec_sourceByStops ⟨settings, ⟨url, template.toList⟩⟩ ctx
  refine ⟨entries, hsublist, ?_, fun e he => ?_⟩
  · rw [compileTemplate_expressions h, Compile.exec_source_eq_byStops, hexpressions]
  · obtain ⟨place, tree, r, htask, henters⟩ := hentries e he
    have hstop : e.1 ∈ Markup.rootStops settings (Markup.Tree.ofSource template.toList).nodes :=
      hsublist.subset (List.mem_map_of_mem he)
    refine ⟨place, tree, r, htask, henters, fun v hv => henters.passes hinner hroot hv, ?_⟩
    exact henters.provides_iff hinner hroot fun d a => Markup.loops_of_rootLoop hstop

/-- A text inside of a loop, in a compile that starts without variables. -/
theorem arguments_of_loop : ∃ c : Compiled,
    (compileTemplate {} "a.html" "<li v-for=\"int i in 3\">\x7b\x7bi\x7d\x7d</li>" {}).answer = .ok c ∧
    c.expressions.map (·.call) = ["exp0()", "exp1(i)"] ∧
    ∀ entry ∈ c.expressions, ∃ (base : Context) (s : Stop) (r : Resolution),
      entry.parameters = Parameter.ofVariables r.parameters ∧
      ∀ v ∈ r.parameters, v.name = "$event" ∧ v.origin = .eventParameter ∨
        ∃ a ∈ s.loops, v ∈ base.loopScope a := by
  have hcalls : (compileTemplate {} "a.html" "<li v-for=\"int i in 3\">\x7b\x7bi\x7d\x7d</li>"
      {}).answer.toOption.map (·.expressions.map (·.call)) = some ["exp0()", "exp1(i)"] := by
    decide +kernel
  obtain ⟨c, hc, hexpressions⟩ := Option.map_eq_some_iff.1 hcalls
  have hrun := eq_ok_of_toOption hc
  refine ⟨c, hrun, hexpressions, fun entry hentry => ?_⟩
  obtain ⟨entries, -, hentries, hpassed⟩ :=
    arguments_available_iff rfl rfl hrun
  rw [hentries] at hentry
  obtain ⟨e, he, rfl⟩ := List.mem_map.1 hentry
  obtain ⟨place, tree, r, -, henters, hpasses, -⟩ := hpassed e he
  exact ⟨_, e.1, r, henters.parameters, hpasses⟩

/-- A binding that is no event binding is passed the event, and an iterable the variable that its own
loop declares. -/
theorem unavailable_arguments_passed :
    (compileTemplate {} "a.html" "<p :x=\"(int) $event + 1\"></p>" {}).answer.toOption.map
      (fun c => (c.expressions.map fun entry => (entry.kind, entry.parameters), c.diagnostics)) =
        some ([(.attributeBinding, [⟨"$event", .int⟩])], []) ∧
    (compileTemplate {} "a.html" "<li v-for=\"int i in i + 1\"></li>" {}).answer.toOption.map
      (fun c => (c.expressions.map fun entry => (entry.kind, entry.parameters), c.diagnostics)) =
        some ([(.loopIterable, [⟨"i", .int⟩])], []) := by
  decide +kernel

end Stencil
