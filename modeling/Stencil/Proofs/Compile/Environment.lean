import Stencil.Proofs.Compile.Stop

/-!
# Environments in place of the scope stack

The walk over a template opens a scope in front of an element with a loop, declares into it, and
closes it when the element is done. The walk from stop to stop has no scopes to open or to close.

**The law** (`Compile.environments_replace_stack`): a compile with the stack and one from stop to stop
are the same run, on every exit: they record the same edits, expressions and diagnostics, say the
same, fail with the same error, and leave the same context. So what a variable of a loop is visible
for can be read off the list of stops.

The two walks are shown to be the same step of a compile (`Compile.roots_eq`). The invariant is
`Mimics`: in the environment of its stops a part of the walk does what the stops do wherever they
start, and leaves the environment as it is. It goes through the functions of the walk by recursion on
the tree, and the case that carries it is that of a loop (`mimics_inScope`), where the environment
gets one scope more.

**What it does not establish.** Of two loop definitions on one element only the first one makes a
scope; a walk with a scope for each of them would be another one (`second_definition_ignored`).
-/

namespace Stencil

open Markup (Attribute Element Node)

namespace Compile

variable {α β : Type} {job : Job}

/-! ## Steps that leave the context as it is -/

/-- The step leaves the context as it is, whether it fails or not. -/
def Keeps (m : Compile α) : Prop := ∀ p, (m.exec p).2.context = p.context

/-- Two steps that leave the context as it is, one after the other. -/
theorem Keeps.bind {m : Compile α} {f : α → Compile β} (hm : Keeps m) (hf : ∀ a, Keeps (f a)) :
    Keeps (m >>= f) := by
  intro p
  have hp := hm p
  rcases h : m.exec p with ⟨answer, q⟩
  rw [h] at hp
  cases answer with
  | error error => rw [exec_bind_of_error h, hp]
  | ok a => rw [exec_bind_of_ok h, hf a q, hp]

theorem keeps_pure (a : α) : Keeps (pure a : Compile α) := fun _ => rfl

/-- A step that records nothing leaves the context as it is. -/
theorem Silent.keeps {m : Compile Unit} (h : Silent m) : Keeps m := by
  intro p
  obtain ⟨q, hq, hcontext, -⟩ := h p
  rw [hq, hcontext]

/-- Compiling a site leaves the context as it is. -/
theorem keeps_site (s : BindingSite) (written : String) : Keeps (site job s written) := by
  intro p
  obtain ⟨_, hrun⟩ := exec_site job s written p
  exact hrun.context

/-- Giving an attribute its new value leaves the context as it is. -/
theorem keeps_setValue (a : Attribute) (text : String) : Keeps (setValue a text) := by
  intro p
  obtain ⟨q, hq, hcontext, -⟩ := Visits.exec_setValue a text p
  rw [hq, hcontext]

/-- Compiling the value of an attribute leaves the context as it is. -/
theorem keeps_value (kind : AttributeKind) (prop : Option DeclaredProp) (a : Attribute) :
    Keeps (value job kind prop a) := by
  by_cases hkind : kind = .plain
  · exact (Visits.silent_plain hkind prop a).keeps
  · unfold value
    rw [if_neg hkind]
    exact (keeps_site _ _).bind fun text => keeps_setValue a text

/-- Compiling an interpolation leaves the context as it is. -/
theorem keeps_marker (offset : Nat) (m : Markup.Marker) : Keeps (marker job offset m) := by
  refine (keeps_site _ _).bind fun text => ?_
  split
  · exact fun _ => rfl
  · exact keeps_pure ()

/-- Compiling what a loop goes through leaves the context as it is. -/
theorem keeps_iterable (a : Attribute) (definition : LoopDefinition) :
    Keeps (iterable job a definition) := by
  refine (silent_say _ _).keeps.bind fun _ => ?_
  exact (keeps_site _ _).bind fun text => keeps_setValue a _

/-- Compiling the expression at a place leaves the context as it is. -/
theorem keeps_placeStep (env : Context) (place : Place) : Keeps (placeStep job env place) := by
  cases place with
  | loop e a =>
    rw [placeStep]
    split
    · exact fun _ => rfl
    · exact keeps_iterable a _
  | value e a => exact keeps_value _ _ _
  | marker offset m => exact keeps_marker offset m

/-- Doing a task leaves the context as it is. -/
theorem keeps_taskStep (env : Context) (task : Task) : Keeps (taskStep job env task) := by
  cases task with
  | site place => exact keeps_placeStep env place
  | plain e a => exact keeps_value _ _ _
  | required e =>
    rw [taskStep]
    split
    · exact (Visits.silent_checkRequiredProps _ _ _).keeps
    · exact keeps_pure ()

/-- A step in an environment starts from that, and the context is put back behind it. -/
theorem exec_inEnvironment (env : Context) (m : Compile α) (p : Progress) :
    (inEnvironment env m).exec p =
      ((m.exec { p with context := env }).1,
        { (m.exec { p with context := env }).2 with context := p.context }) := rfl

/-- Going from stop to stop leaves the context as it is. -/
theorem keeps_follow (base : Context) (stops : List Stop) : Keeps (follow job base stops) := by
  induction stops with
  | nil => exact keeps_pure ()
  | cons stop stops ih => exact Keeps.bind (fun _ => rfl) fun _ => ih

/-- Stops behind other stops. -/
theorem follow_append (base : Context) (ss ts : List Stop) :
    follow job base (ss ++ ts) = (do follow job base ss; follow job base ts) :=
  List.forM_append

/-! ## The two walks compared -/

/-- Started in the environment `env`, the step `m` does what the step `r` does wherever that starts,
and leaves the environment as it is. -/
def Mimics (env : Context) (m r : Compile α) : Prop :=
  ∀ p, m.exec { p with context := env } = ((r.exec p).1, { (r.exec p).2 with context := env })

namespace Mimics

variable {env : Context} {m r : Compile α}

/-- Two steps that mimic two others, one after the other. -/
theorem bind {f g : α → Compile β} (h : Mimics env m r) (hf : ∀ a, Mimics env (f a) (g a)) :
    Mimics env (m >>= f) (r >>= g) := by
  intro p
  have hp := h p
  rcases hr : r.exec p with ⟨answer, q⟩
  rw [hr] at hp
  cases answer with
  | error error => rw [exec_bind_of_error hp, exec_bind_of_error hr]
  | ok a => rw [exec_bind_of_ok hp, exec_bind_of_ok hr, hf a q]

theorem pure (a : α) : Mimics env (Pure.pure a : Compile α) (Pure.pure a) := fun _ => rfl

/-- A step that keeps the context can be run in an environment of its own. -/
theorem ofKeeps (h : Keeps m) : Mimics env m (inEnvironment env m) := by
  intro p
  have hcontext : _ = env := h { p with context := env }
  rw [exec_inEnvironment]
  rcases hm : m.exec { p with context := env } with ⟨answer, q⟩
  rw [hm] at hcontext
  subst hcontext
  rfl

/-- A step that looks at the context first, and then does what `f` says. -/
theorem context {f : Context → Compile α} (h : Mimics env (f env) r) :
    Mimics env (Compile.context >>= f) r := h

/-- Where the context is `env`, and `r` keeps it, the two steps are the same. -/
theorem exec_eq (h : Mimics env m r) (hr : Keeps r) {p : Progress} (hp : p.context = env) :
    m.exec p = r.exec p := by
  have hm := h p
  have hkept := hr p
  subst hp
  rw [hm, ← hkept]

end Mimics

/-- One stop: its task is done in its environment. -/
theorem follow_singleton (base : Context) (stop : Stop) : follow job base [stop] =
    inEnvironment (base.within stop.loops) (taskStep job (base.within stop.loops) stop.task) :=
  bind_pure _

/-- The first stop, and those behind it. -/
theorem follow_cons (base : Context) (stop : Stop) (stops : List Stop) :
    follow job base (stop :: stops) = (do
      inEnvironment (base.within stop.loops) (taskStep job (base.within stop.loops) stop.task)
      follow job base stops) := rfl

section

variable (job : Job) (base : Context) (loops : List Attribute)

/-- A step that does the task of a stop, in its environment, is what happens at the stop. -/
theorem mimics_task (task : Task) {m : Compile Unit}
    (hm : m = taskStep job (base.within loops) task) :
    Mimics (base.within loops) m (follow job base [⟨loops, task⟩]) := by
  rw [follow_singleton, hm]
  exact .ofKeeps (keeps_taskStep _ task)

/-- A step for each member of a list, where each is what happens at its stops. -/
theorem mimics_forM {γ : Type} {f : γ → Compile Unit} {stops : γ → List Stop}
    (h : ∀ c, Mimics (base.within loops) (f c) (follow job base (stops c))) (cs : List γ) :
    Mimics (base.within loops) (cs.forM f) (follow job base (cs.flatMap stops)) := by
  induction cs with
  | nil => exact .pure ()
  | cons c cs ih =>
    rw [List.flatMap_cons, follow_append]
    exact (h c).bind fun _ => ih

/-! ### Texts and attributes -/

/-- The interpolations of a text. -/
theorem mimics_markers (value : String) (span : Span) :
    Mimics (base.within loops) (markers job value span) (follow job base
      (((Markup.markers value.toList).map (Place.marker span.start)).map
        fun place => ⟨loops, .site place⟩)) := by
  rw [List.map_map, List.map_eq_flatMap]
  exact mimics_forM job base loops
    (fun m => mimics_task job base loops (.site (.marker span.start m)) rfl) _

/-- The texts among the nodes. -/
theorem mimics_texts (nodes : List Node) :
    Mimics (base.within loops)
      ((Markup.childTexts nodes).forM fun (value, span) => markers job value span)
      (follow job base ((Markup.textPlaces nodes).map fun place => ⟨loops, .site place⟩)) := by
  rw [Markup.textPlaces, List.map_flatMap]
  exact mimics_forM job base loops (fun (value, span) => mimics_markers job base loops value span) _

/-- What is to be done about an attribute that is neither a loop definition nor a model. -/
theorem exists_task (e : Element) {a : Attribute} (env : Context)
    (hloop : AttributeKind.ofName a.name ≠ .loop) (hmodel : AttributeKind.ofName a.name ≠ .model) :
    ∃ task, a.task? e = some task ∧ taskStep job env task =
      value job (AttributeKind.ofName a.name) (passedProp? env (childOf? env e) a) a := by
  unfold Attribute.task?
  cases hkind : AttributeKind.ofName a.name with
  | loop => exact absurd hkind hloop
  | model => exact absurd hkind hmodel
  | plain => exact ⟨_, rfl, rfl⟩
  | event | propertyBinding | conditional | directive =>
    refine ⟨_, rfl, ?_⟩
    rw [taskStep, placeStep, hkind]

/-- The attributes of an element are its stops, and the props that they pass can be read off them. -/
theorem mimics_attributes (e : Element) (as : List Attribute) :
    Mimics (base.within loops) (attributes job (childOf? (base.within loops) e) as) (do
      follow job base ((as.filterMap (·.task? e)).map (Stop.mk loops))
      return passedNames (base.within loops) e as) := by
  induction as with
  | nil => exact .pure []
  | cons a as ih =>
    by_cases hskip : AttributeKind.ofName a.name = .loop ∨ AttributeKind.ofName a.name = .model
    · have hnone : a.task? e = none := by rcases hskip with h | h <;> simp [Attribute.task?, h]
      have hnames : passedNames (base.within loops) e (a :: as) =
          passedNames (base.within loops) e as := by simp [passedNames, hnone]
      rw [Visits.attributes_cons_skip hskip, List.filterMap_cons_none hnone, hnames]
      exact ih
    · rw [not_or] at hskip
      obtain ⟨task, htask, hstep⟩ := exists_task job e (base.within loops) hskip.1 hskip.2
      have hnames : passedNames (base.within loops) e (a :: as) =
          ((passedProp? (base.within loops) (childOf? (base.within loops) e) a).map (·.name)).toList
            ++ passedNames (base.within loops) e as := by simp [passedNames, htask]
      -- The names of the passed props are put together behind the steps, and that is the same
      -- everywhere.
      have hpush (names : List String) : Mimics (base.within loops) _ _ := .pure
        (((passedProp? (base.within loops) (childOf? (base.within loops) e) a).map (·.name)).toList
          ++ names)
      have hall := (mimics_task job base loops task hstep.symm).bind fun _ => ih.bind hpush
      rw [follow_singleton] at hall
      rw [Visits.attributes_cons hskip.1 hskip.2, List.filterMap_cons_some htask, List.map_cons,
        follow_cons, hnames, bind_assoc]
      simp only [bind_assoc, pure_bind] at hall
      exact .context hall

/-! ### Elements -/

/-- An element apart from its child elements, with the component that it uses looked up in front. -/
theorem own_eq (e : Element) (children : List Node) : own job e children = (do
    let env ← context
    let passed ← attributes job (childOf? env e) e.attributes
    (match childOf? env e with
      | some child => checkRequiredProps job child passed e
      | none => pure ())
    (Markup.childTexts children).forM fun (value, span) => markers job value span) := by
  unfold own
  refine bind_congr fun env => bind_congr fun passed => ?_
  cases childOf? env e with
  | some child => rfl
  | none => exact (pure_bind _ _).symm

/-- An element apart from its loop definition and its child elements. -/
theorem mimics_own (e : Element) (children : List Node) :
    Mimics (base.within loops) (own job e children)
      (follow job base ((e.tasks children).map (Stop.mk loops))) := by
  have hrequired (passed : List String) : Mimics (base.within loops)
      (match childOf? (base.within loops) e with
        | some child => checkRequiredProps job child passed e
        | none => pure ())
      (inEnvironment (base.within loops) (match childOf? (base.within loops) e with
        | some child => checkRequiredProps job child passed e
        | none => pure ())) := by
    apply Mimics.ofKeeps
    split
    · exact (Visits.silent_checkRequiredProps _ passed e).keeps
    · exact keeps_pure ()
  have hall := (mimics_attributes job base loops e e.attributes).bind fun passed =>
    (hrequired passed).bind fun _ => mimics_texts job base loops children
  simp only [bind_assoc, pure_bind] at hall
  rw [own_eq, Element.tasks, List.map_append, List.map_append, follow_append, follow_append,
    List.map_singleton, follow_singleton, List.map_map, bind_assoc]
  exact .context hall

/-- A loop definition that cannot be read fails at its stop. -/
theorem placeStep_loop_of_error {env : Context} {e : Element} {a : Attribute} {error : LoopError}
    (h : LoopDefinition.parse env a.value = .error error) :
    placeStep job env (.loop e a) = throw (.loop error) := by
  rw [placeStep, h]

/-- At the stop of a loop definition that can be read, its iterable is compiled. -/
theorem placeStep_loop_of_ok {env : Context} {e : Element} {a : Attribute}
    {definition : LoopDefinition} (h : LoopDefinition.parse env a.value = .ok definition) :
    placeStep job env (.loop e a) = iterable job a definition := by
  rw [placeStep, h]

/-- A loop definition that cannot be read fails, and declares nothing. -/
theorem exec_loop_of_error {a : Attribute} {error : LoopError} {p : Progress}
    (h : LoopDefinition.parse p.context a.value = .error error) :
    (loop job a).exec p = (.error (.loop error), p) := by
  rw [loop, exec_bind_of_ok (exec_context p), h]
  rfl

/-- A loop definition that can be read declares its variables, and then its iterable is compiled. -/
theorem exec_loop_of_ok {a : Attribute} {definition : LoopDefinition} {p : Progress}
    (h : LoopDefinition.parse p.context a.value = .ok definition) :
    (loop job a).exec p = (iterable job a definition).exec
      { p with context := p.context.declareAll definition.declared } := by
  rw [loop, exec_bind_of_ok (exec_context p), h]
  exact exec_bind_of_ok (exec_modifyContext _ _)

/-- A loop opens a scope: from the fresh scope on top of the environment, its definition comes to the
environment with the variables in it. When the definition fails, all that is on top is one scope. -/
theorem exec_loop (e : Element) (a : Attribute) (p : Progress) :
    ∃ last : Context, last.pop = base.within loops ∧
      (∀ u, ((follow job base [⟨loops ++ [a], .site (.loop e a)⟩]).exec p).1 = .ok u →
        last = base.within (loops ++ [a])) ∧
      (loop job a).exec { p with context := (base.within loops).push } =
        (((follow job base [⟨loops ++ [a], .site (.loop e a)⟩]).exec p).1,
          { ((follow job base [⟨loops ++ [a], .site (.loop e a)⟩]).exec p).2 with
            context := last }) := by
  rw [follow_singleton, taskStep]
  -- The definition is read in the fresh scope, and the same in the environment of the stop: the
  -- imports alone matter.
  cases hparse : LoopDefinition.parse base a.value with
  | error error =>
    have hinner : LoopDefinition.parse (base.within (loops ++ [a])) a.value = .error error := hparse
    rw [placeStep_loop_of_error job hinner]
    exact ⟨(base.within loops).push, rfl, by rintro _ ⟨⟩, exec_loop_of_error job hparse⟩
  | ok definition =>
    have henv : (base.within loops).push.declareAll definition.declared =
        base.within (loops ++ [a]) := by
      rw [Context.declareAll_push, Context.within_concat, Context.loopScope, hparse]
    have hinner : LoopDefinition.parse (base.within (loops ++ [a])) a.value = .ok definition := hparse
    rw [placeStep_loop_of_ok job hinner]
    refine ⟨base.within (loops ++ [a]), ?_, fun _ _ => rfl, ?_⟩
    · rw [Context.within_concat]
      rfl
    · refine (exec_loop_of_ok job hparse).trans ?_
      dsimp only
      rw [henv]
      exact Mimics.ofKeeps (keeps_iterable a definition) p

/-- The scope of a loop holds its variables while the rest of the element is compiled, and is gone
afterwards. -/
theorem mimics_inScope (e : Element) (a : Attribute) {m r : Compile Unit}
    (h : Mimics (base.within (loops ++ [a])) m r) :
    Mimics (base.within loops) (inScope do loop job a; m) (do
      follow job base [⟨loops ++ [a], .site (.loop e a)⟩]
      r) := by
  intro p
  obtain ⟨last, hpop, hlast, hloop⟩ := exec_loop job base loops e a p
  show ((do loop job a; m : Compile Unit).exec { p with context := (base.within loops).push } |>.1,
    { ((do loop job a; m : Compile Unit).exec { p with context := (base.within loops).push }).2 with
      context := ((do loop job a; m : Compile Unit).exec
        { p with context := (base.within loops).push }).2.context.pop }) = _
  rcases hfirst : (follow job base [⟨loops ++ [a], .site (.loop e a)⟩]).exec p with ⟨answer, q⟩
  rw [hfirst] at hlast hloop
  cases answer with
  | error error =>
    rw [exec_bind_of_error hloop, exec_bind_of_error hfirst]
    dsimp only
    rw [hpop]
  | ok u =>
    have hinner : last = base.within (loops ++ [a]) := hlast u rfl
    rw [exec_bind_of_ok hloop, exec_bind_of_ok hfirst, ← hpop, hinner]
    dsimp only
    rw [h q]

mutual

/-- An element, with its loop and its child elements, is what happens at its stops. -/
theorem mimics_element (loops : List Attribute) (node : Node) :
    Mimics (base.within loops) (element job node)
      (follow job base (node.stops job.settings loops)) := by
  cases node with
  | text value span => exact .pure ()
  | comment value span => exact .pure ()
  | element e children =>
    rw [Node.stops]
    by_cases himport : isImport job.settings e = true
    · rw [element, if_pos himport, if_pos himport]
      exact .pure ()
    · -- The element apart from its loop, which is one loop more around all that is in it.
      have hrest (here : List Attribute) : Mimics (base.within here)
          (do own job e children; elements job children) (do
            follow job base ((e.tasks children).map (Stop.mk here))
            follow job base (Markup.stops job.settings here children)) :=
        (mimics_own job base here e children).bind fun _ => mimics_elements here children
      rw [if_neg himport]
      cases ha : e.loop? with
      | none =>
        rw [Visits.element_plain himport ha]
        simpa [follow_append] using hrest loops
      | some a =>
        rw [Visits.element_loop himport ha]
        have hloop := mimics_inScope job base loops e a (hrest (loops ++ [a]))
        rw [← follow_append, ← follow_append] at hloop
        exact hloop

/-- The elements among the nodes are what happens at their stops. -/
theorem mimics_elements (loops : List Attribute) (nodes : List Node) :
    Mimics (base.within loops) (elements job nodes)
      (follow job base (Markup.stops job.settings loops nodes)) := by
  cases nodes with
  | nil => exact .pure ()
  | cons node nodes =>
    rw [Markup.stops, elements, follow_append]
    exact (mimics_element loops node).bind fun _ => mimics_elements loops nodes

end

/-- The whole walk is what happens at the stops of the template. -/
theorem mimics_roots (nodes : List Node) :
    Mimics base (roots job nodes)
      (follow job base (Markup.rootStops job.settings nodes)) := by
  induction nodes with
  | nil => exact .pure ()
  | cons node nodes ih =>
    rw [Markup.rootStops, List.flatMap_cons, follow_append]
    cases node with
    | text value span =>
      rw [roots, Node.stops, List.append_nil]
      have htext : Mimics base (markers job value span) (follow job base
          ((Markup.textPlaces [.text value span]).map fun place => ⟨[], .site place⟩)) := by
        have hmarkers := mimics_markers job base [] value span
        simpa [Markup.textPlaces, Markup.childTexts] using hmarkers
      exact htext.bind fun _ => ih
    | comment value span =>
      rw [roots]
      · exact (mimics_element job base [] (.comment value span)).bind fun _ => ih
      · rintro _ _ ⟨⟩
    | element e children =>
      rw [roots]
      · exact (mimics_element job base [] (.element e children)).bind fun _ => ih
      · rintro _ _ ⟨⟩

end

/-- The walk with the stack is the walk from stop to stop, started from the context that is there. -/
theorem roots_eq (nodes : List Node) : roots job nodes = (do
    let base ← context
    follow job base (Markup.rootStops job.settings nodes)) := by
  funext p
  exact (mimics_roots job p.context nodes).exec_eq (keeps_follow _ _) rfl

/-! ## The steps in front of the walk -/

/-- The step changes no more of the context than the imports. -/
def KeepsScopes (m : Compile α) : Prop :=
  ∀ p, (m.exec p).2.context = { p.context with
    imports := (m.exec p).2.context.imports
    staticImports := (m.exec p).2.context.staticImports }

/-- A step that leaves the context as it is keeps the scopes. -/
theorem Keeps.keepsScopes {m : Compile α} (h : Keeps m) : KeepsScopes m := by
  intro p
  rw [h p]

/-- Two steps that keep the scopes, one after the other. -/
theorem KeepsScopes.bind {m : Compile α} {f : α → Compile β} (hm : KeepsScopes m)
    (hf : ∀ a, KeepsScopes (f a)) : KeepsScopes (m >>= f) := by
  intro p
  have hp := hm p
  rcases h : m.exec p with ⟨answer, q⟩
  rw [h] at hp
  cases answer with
  | error error => rw [exec_bind_of_error h]; exact hp
  | ok a =>
    rw [exec_bind_of_ok h, hf a q]
    dsimp only at hp ⊢
    rw [hp]

/-- A step that keeps the scopes, for each member of a list. -/
theorem KeepsScopes.forM {γ : Type} {f : γ → Compile Unit} (hf : ∀ c, KeepsScopes (f c))
    (cs : List γ) : KeepsScopes (cs.forM f) := by
  induction cs with
  | nil => exact (keeps_pure ()).keepsScopes
  | cons c cs ih => exact (hf c).bind fun _ => ih

/-- The implicit imports of the settings keep the scopes. -/
theorem keepsScopes_implicitImports (names : List String) :
    KeepsScopes (modifyContext (names.foldl Context.addImplicitImport)) := by
  intro p
  rw [exec_modifyContext]
  dsimp only
  induction names generalizing p with
  | nil => rfl
  | cons name names ih => exact ih { p with context := p.context.addImplicitImport name }

/-- An import element keeps the scopes. -/
theorem keepsScopes_processImport (e : Element) : KeepsScopes (processImport e) := by
  intro p
  unfold processImport
  cases e.attribute? "class" <;> cases e.attribute? "static" <;> rfl

/-- What follows a step matters only where the step comes to. -/
theorem exec_bind_congr {m : Compile α} {f g : α → Compile β} {p : Progress}
    (h : ∀ a q, m.exec p = (.ok a, q) → (f a).exec q = (g a).exec q) :
    (m >>= f).exec p = (m >>= g).exec p := by
  rcases hm : m.exec p with ⟨answer, q⟩
  cases answer with
  | error error => rw [exec_bind_of_error hm, exec_bind_of_error hm]
  | ok a => rw [exec_bind_of_ok hm, exec_bind_of_ok hm, h a q hm]

/-- Compiling a template is going from stop to stop, each with the initial scopes and one scope more
for each loop of its element and of the ancestors: all that is recorded, said or left behind is the
same, and so is the error when the compile fails. -/
theorem exec_source_eq_byStops (job : Job) (ctx : Context) :
    (source job).exec { context := ctx } = (sourceByStops job ctx).exec { context := ctx } := by
  rw [source_eq, sourceByStops, sourceBy, sourceBy]
  refine exec_bind_congr fun _ p hp => exec_bind_congr fun _ q hq =>
    exec_bind_congr fun _ r hr => ?_
  have hcontext : r.context = { ctx with
      imports := r.context.imports, staticImports := r.context.staticImports } := by
    have hreport (e : Markup.MarkupError) : KeepsScopes (reportMarkup job e) :=
      (silent_reportMarkup e).keeps.keepsScopes
    have hscopes := ((keepsScopes_implicitImports job.settings.implicitImports).bind fun _ =>
      (KeepsScopes.forM hreport (Markup.Tree.ofSource job.file.content).errors).bind fun _ =>
      KeepsScopes.forM keepsScopes_processImport
        (importElements job.settings (Markup.Tree.ofSource job.file.content).nodes))
      { context := ctx }
    rwa [exec_bind_of_ok hp, exec_bind_of_ok hq, hr] at hscopes
  have hwalk : (roots job (Markup.Tree.ofSource job.file.content).nodes).exec r =
      (do
        let now ← context
        follow job { ctx with imports := now.imports, staticImports := now.staticImports }
          (Markup.rootStops job.settings (Markup.Tree.ofSource job.file.content).nodes) :
        Compile Unit).exec r := by
    rw [roots_eq, exec_bind_of_ok (exec_context r), exec_bind_of_ok (exec_context r), ← hcontext]
  rw [exec_bind, exec_bind, hwalk]

/-- A compile with a stack of scopes is a compile with environments. The stops are the places of the
template, in their order, and what a name stands for in the environment of a stop is decided by its
innermost loop that declares it; only a name that no loop of the stop declares is looked up in the
initial context. -/
theorem environments_replace_stack (job : Job) (ctx : Context) :
    (source job).exec { context := ctx } = (sourceByStops job ctx).exec { context := ctx } ∧
      (Markup.rootStops job.settings (Markup.Tree.ofSource job.file.content).nodes).filterMap
        (·.task.place?) =
          Markup.rootPlaces job.settings (Markup.Tree.ofSource job.file.content).nodes ∧
      ∀ (base : Context) (loops : List Attribute) (a : Attribute) (name : String),
        (base.within (loops ++ [a])).find? name =
          ((base.loopScope a).find? name).or ((base.within loops).find? name) :=
  ⟨exec_source_eq_byStops job ctx, Markup.places_rootStops _ _, Context.find?_within_concat⟩

/-- Of two loop definitions on one element the second declares nothing: with a scope for each of
them the text would have an expression, and it has none. -/
theorem second_definition_ignored :
    let template := "<li v-for=\"int i in 3\" v-for=\"int j in 4\">\x7b\x7bj\x7d\x7d</li>"
    let job : Job := ⟨{}, ⟨"a.html", template.toList⟩⟩
    ∃ (a b : Attribute) (value : String) (span : Span),
      (Markup.elementsOf (Markup.Tree.ofSource template.toList).nodes).map
        (fun e => (e.1.attributes, Markup.childTexts e.2)) = [([a, b], [(value, span)])] ∧
      a.name = "v-for" ∧ b.name = "v-for" ∧
      ((markers job value span).exec
        { context := ({} : Context).within [a, b] }).2.result.expressions.map (·.kind) =
          [.interpolation] ∧
      (compileTemplate {} "a.html" template {}).answer.toOption.map
        (·.expressions.map (·.kind)) = some [.loopIterable] := by
  refine ⟨⟨"v-for", "int i in 3", ⟨4, 22⟩, some ⟨11, 21⟩, some '"'⟩,
    ⟨"v-for", "int j in 4", ⟨23, 41⟩, some ⟨30, 40⟩, some '"'⟩, "\x7b\x7bj\x7d\x7d", ⟨42, 47⟩, ?_⟩
  decide +kernel

end Compile

end Stencil
