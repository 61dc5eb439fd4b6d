import Stencil.Proofs.Compile.Template

/-!
# The walk without a stack

The walk over a template keeps the variables of the loops it is in on a stack of scopes. Here is a
walk that needs none (`Compile.follow`). It goes through a list of stops (`Markup.rootStops`), which
is read off the tree, and each stop knows the loops that it is in. The environment of a stop is the
initial context with one scope for each of these loops (`Context.within`); it is built for the stop,
and nothing that happens there can change it.

The stops are more than the places: at a plain attribute there may be something to report, and at the
end of the attributes it is seen whether all props are passed. But the places of the stops are all
places of the template, in their order (`places_rootStops`). In an environment the innermost loop
comes first (`find?_within_concat`), and at a loop definition that is the loop itself
(`loops_of_rootLoop`).

**What it does not establish.** That the walk with a stack does the same is the subject of the module
on environments; what is here says nothing about a compile yet.
-/

namespace Stencil

open Markup (Attribute Element Node)

/-! ## Environments -/

namespace Context

/-- The scope of a loop with the given definition: the declared variables, the newest first. A
definition that cannot be read declares none. -/
def loopScope (ctx : Context) (a : Attribute) : Scope :=
  match LoopDefinition.parse ctx a.value with
  | .ok definition => definition.declared.reverse
  | .error _ => []

/-- The environment inside of loops, of which the outermost comes first. -/
def within (ctx : Context) (loops : List Attribute) : Context :=
  { ctx with inner := (loops.map ctx.loopScope).reverse ++ ctx.inner }

/-- Outside of all loops the environment is the initial context. -/
@[simp] theorem within_nil (ctx : Context) : ctx.within [] = ctx := rfl

/-- A loop inside of others has its scope on top of theirs. -/
theorem within_concat (ctx : Context) (loops : List Attribute) (a : Attribute) :
    ctx.within (loops ++ [a]) =
      { ctx.within loops with inner := ctx.loopScope a :: (ctx.within loops).inner } := by
  simp [within]

/-- The variables of an inner loop shadow those of the outer ones, and these the rest. -/
theorem find?_within_concat (ctx : Context) (loops : List Attribute) (a : Attribute)
    (name : String) : (ctx.within (loops ++ [a])).find? name =
      ((ctx.loopScope a).find? name).or ((ctx.within loops).find? name) := by
  rw [within_concat]
  unfold find? scopes
  rw [List.cons_append, List.findSome?_cons]
  cases (ctx.loopScope a).find? name with
  | none => rfl
  | some v => rfl

/-- Declaring variables in a fresh scope, one after the other, leaves the newest in front. -/
theorem declareAll_push (ctx : Context) (vs : List Variable) :
    ctx.push.declareAll vs = { ctx with inner := vs.reverse :: ctx.inner } := by
  have key (scope : Scope) : ({ ctx with inner := scope :: ctx.inner } : Context).declareAll vs =
      { ctx with inner := (vs.reverse ++ scope) :: ctx.inner } := by
    induction vs generalizing scope with
    | nil => rfl
    | cons v vs ih =>
      show ({ ctx with inner := (v :: scope) :: ctx.inner } : Context).declareAll vs = _
      rw [ih (v :: scope)]
      simp
  have h := key []
  rwa [List.append_nil] at h

end Context

/-! ## Stops -/

/-- What there is to do at one stop of the walk. -/
inductive Task
  /-- To compile the expression at a place. -/
  | site (place : Place)
  /-- To compare a plain attribute with the prop that it passes. -/
  | plain (element : Element) (a : Attribute)
  /-- To see whether a use of a child component passes all props that it should. -/
  | required (element : Element)

/-- The place of the task, if it is to compile an expression. -/
def Task.place? : Task → Option Place
  | site place => some place
  | plain .. | required _ => none

/-- What is done at a place is done there. -/
@[simp] theorem Task.place?_site (place : Place) : (site place).place? = some place := rfl

/-- A stop of the walk. -/
structure Stop where
  /-- The loop definitions of the element and of its ancestors, the outermost first. -/
  loops : List Attribute
  task : Task

namespace Markup

/-- What there is to do about an attribute, apart from its being a loop definition. -/
def Attribute.task? (e : Element) (a : Attribute) : Option Task :=
  match AttributeKind.ofName a.name with
  | .loop | .model => none
  | .plain => some (.plain e a)
  | .event | .propertyBinding | .conditional | .directive => some (.site (.value e a))

/-- What there is to do about an element, apart from its loop definition and its child elements. -/
def Element.tasks (e : Element) (children : List Node) : List Task :=
  e.attributes.filterMap (·.task? e) ++ [.required e] ++ (textPlaces children).map .site

/-- The definition of the loop that the element is repeated by. Of several attributes of the name,
the first counts. -/
def Element.loop? (e : Element) : Option Attribute := e.attribute? "v-for"

mutual

/-- The stops at an element and below it, inside of the given loops. An import element has none. -/
def Node.stops (settings : Settings) (loops : List Attribute) : Node → List Stop
  | .element e children =>
    if Compile.isImport settings e then []
    else
      let here := loops ++ e.loop?.toList
      (e.loop?.toList.map (fun a => Task.site (.loop e a)) ++ e.tasks children).map (Stop.mk here)
        ++ stops settings here children
  | .text .. | .comment .. => []

/-- The stops at the elements among the nodes and below them. -/
def stops (settings : Settings) (loops : List Attribute) : List Node → List Stop
  | [] => []
  | node :: nodes => node.stops settings loops ++ stops settings loops nodes

end

/-- The stops in a template whose nodes these are. -/
def rootStops (settings : Settings) (nodes : List Node) : List Stop :=
  nodes.flatMap fun node =>
    (textPlaces [node]).map (fun place => ⟨[], .site place⟩) ++ node.stops settings []

/-! The stops at which something is compiled are the places of the template, in their order. -/

/-- Of what is done about an attribute, only the sites are places. -/
theorem Attribute.place?_task? (e : Element) (a : Attribute) :
    (a.task? e).bind (·.place?) = if a.isSite then some (.value e a) else none := by
  unfold Attribute.task? Attribute.isSite
  cases AttributeKind.ofName a.name <;> rfl

/-- The places among what is done at an element, its loop definition apart. -/
theorem Element.places_tasks (e : Element) (children : List Node) :
    (e.tasks children).filterMap (·.place?) =
      (e.attributes.filter (·.isSite)).map (.value e) ++ textPlaces children := by
  have hattributes : (e.attributes.filterMap (·.task? e)).filterMap (·.place?) =
      (e.attributes.filter (·.isSite)).map (.value e) := by
    rw [List.filterMap_filterMap]
    simp only [Attribute.place?_task?]
    induction e.attributes with
    | nil => rfl
    | cons a as ih => by_cases h : a.isSite = true <;> simp [h, ih]
  have htexts : ((textPlaces children).map Task.site).filterMap (·.place?) =
      textPlaces children := by
    rw [List.filterMap_map]
    exact List.filterMap_some
  rw [Element.tasks, List.filterMap_append, List.filterMap_append, hattributes, htexts]
  simp [Task.place?]

mutual

/-- The places of the stops at a node and below it. -/
theorem Node.places_stops (settings : Settings) (loops : List Attribute) (node : Node) :
    (node.stops settings loops).filterMap (·.task.place?) = node.places settings := by
  cases node with
  | text value span => rfl
  | comment value span => rfl
  | element e children =>
    rw [Node.stops, Node.places]
    split
    · rfl
    · have hbelow (here : List Attribute) := places_stops settings here children
      have hown := e.places_tasks children
      rw [Element.places]
      change _ = e.loop?.toList.map _ ++ _ ++ _ ++ _
      cases e.loop? with
      | none => simp [List.filterMap_map, hown, hbelow]
      | some a => simp [List.filterMap_map, hown, hbelow]

/-- The places of the stops in a forest. -/
theorem places_stops (settings : Settings) (loops : List Attribute) (nodes : List Node) :
    (stops settings loops nodes).filterMap (·.task.place?) = places settings nodes := by
  cases nodes with
  | nil => rfl
  | cons node nodes =>
    rw [stops, places, List.filterMap_append, Node.places_stops, places_stops]

end

/-- The places of the stops are the places of the template, in their order. -/
theorem places_rootStops (settings : Settings) (nodes : List Node) :
    (rootStops settings nodes).filterMap (·.task.place?) = rootPlaces settings nodes := by
  rw [rootStops, rootPlaces, List.filterMap_flatMap]
  refine List.flatMap_congr fun node _ => ?_
  rw [List.filterMap_append, Node.places_stops, List.filterMap_map]
  congr 1
  exact List.filterMap_some

/-- What is done at an element is not its loop definition, which is a stop in front of it. -/
theorem Element.not_loop_of_mem_tasks {e d : Element} {children : List Node} {a : Attribute} :
    .site (.loop d a) ∉ e.tasks children := by
  intro h
  have hplace : Place.loop d a ∈ (e.tasks children).filterMap (·.place?) :=
    List.mem_filterMap.2 ⟨_, h, rfl⟩
  rw [Element.places_tasks] at hplace
  simp [textPlaces] at hplace

/-! A stop at a loop definition is inside of that loop, as the innermost one. -/

mutual

/-- At a loop definition below a node, the innermost loop is that loop itself. -/
theorem Node.loops_of_loop {settings : Settings} {loops : List Attribute} {node : Node} {s : Stop}
    {d : Element} {a : Attribute} (h : s ∈ node.stops settings loops)
    (htask : s.task = .site (.loop d a)) : ∃ outer, s.loops = outer ++ [a] := by
  cases node with
  | text value span => cases h
  | comment value span => cases h
  | element e children =>
    rw [Node.stops] at h
    split at h
    · cases h
    · rcases List.mem_append.1 h with h | h
      · obtain ⟨task, hmem, rfl⟩ := List.mem_map.1 h
        rcases List.mem_append.1 hmem with hloop | hmem
        · obtain ⟨b, hb, rfl⟩ := List.mem_map.1 hloop
          cases htask
          rw [Option.mem_toList] at hb
          exact ⟨loops, by rw [hb]; rfl⟩
        · obtain rfl : task = .site (.loop d a) := htask
          exact absurd hmem Element.not_loop_of_mem_tasks
      · exact loops_of_loop h htask

/-- At a loop definition in a forest, the innermost loop is that loop itself. -/
theorem loops_of_loop {settings : Settings} {loops : List Attribute} {nodes : List Node} {s : Stop}
    {d : Element} {a : Attribute} (h : s ∈ stops settings loops nodes)
    (htask : s.task = .site (.loop d a)) : ∃ outer, s.loops = outer ++ [a] := by
  cases nodes with
  | nil => cases h
  | cons node nodes =>
    rw [stops] at h
    rcases List.mem_append.1 h with h | h
    · exact Node.loops_of_loop h htask
    · exact loops_of_loop h htask

end

/-- At a loop definition of the template, the innermost loop is that loop itself. -/
theorem loops_of_rootLoop {settings : Settings} {nodes : List Node} {s : Stop} {d : Element}
    {a : Attribute} (h : s ∈ rootStops settings nodes) (htask : s.task = .site (.loop d a)) :
    ∃ outer, s.loops = outer ++ [a] := by
  obtain ⟨node, -, h⟩ := List.mem_flatMap.1 h
  rcases List.mem_append.1 h with h | h
  · obtain ⟨place, hplace, rfl⟩ := List.mem_map.1 h
    cases htask
    simp [textPlaces] at hplace
  · exact Node.loops_of_loop h htask

end Markup

/-! ## The walk from stop to stop -/

namespace Compile

variable {α : Type}

/-- Runs a step in an environment. The step sees nothing else of the context of the compile, and
what it may do to the environment is forgotten. -/
def inEnvironment (env : Context) (step : Compile α) : Compile α := ExceptT.mk fun p =>
  let (answer, q) := step.run.run { p with context := env }
  (answer, { q with context := p.context })

/-- Compiles what a loop goes through, its variables being declared. -/
def iterable (job : Job) (a : Attribute) (definition : LoopDefinition) : Compile Unit := do
  say .debug s!"Entered loop scope with {definition.head}"
  let text ← site job ⟨some .loop, none, definition.iterableType, valueSpan a⟩ definition.iterable
  setValue a (definition.render text)

/-- Compiles the expression at a place whose environment is `env`. -/
def placeStep (job : Job) (env : Context) : Place → Compile Unit
  | .loop _ a =>
    match LoopDefinition.parse env a.value with
    | .error error => throw (.loop error)
    | .ok definition => iterable job a definition
  | .value e a =>
    value job (AttributeKind.ofName a.name) (passedProp? env (childOf? env e) a) a
  | .marker offset m => marker job offset m

/-- The names of the props that the attributes of an element pass. -/
def passedNames (env : Context) (e : Element) (as : List Attribute) : List String :=
  (as.filter fun a => (a.task? e).isSome).flatMap fun a =>
    ((passedProp? env (childOf? env e) a).map (·.name)).toList

/-- Does a task in the environment `env`. -/
def taskStep (job : Job) (env : Context) : Task → Compile Unit
  | .site place => placeStep job env place
  | .plain e a => value job .plain (passedProp? env (childOf? env e) a) a
  | .required e =>
    match childOf? env e with
    | some child => checkRequiredProps job child (passedNames env e e.attributes) e
    | none => pure ()

/-- Goes from stop to stop. Each has an environment of its own: `base`, with one scope for each of
the loops that the stop is in. -/
def follow (job : Job) (base : Context) (stops : List Stop) : Compile Unit :=
  stops.forM fun stop =>
    let env := base.within stop.loops
    inEnvironment env (taskStep job env stop.task)

/-- The steps of a compile, with `walk` for the walk over the tree. -/
def sourceBy (walk : List Node → Compile Unit) (job : Job) : Compile Compiled := do
  modifyContext (job.settings.implicitImports.foldl Context.addImplicitImport)
  let tree := Markup.Tree.ofSource job.file.content
  tree.errors.forM (reportMarkup job)
  (importElements job.settings tree.nodes).forM processImport
  walk tree.nodes
  let p ← get
  let template := String.ofList (Edit.applyAll job.file.content p.edits)
  say .debug s!"Compiled {job.file.url}: {p.result.expressions.length} expressions, {p.result.diagnostics.length} diagnostics"
  return { p.result with template }

/-- The compile without a stack of scopes. What is in scope at a stop comes from the initial context
`ctx` and the loops that the stop is in; only the imports are those that are known by then. -/
def sourceByStops (job : Job) (ctx : Context) : Compile Compiled :=
  sourceBy (fun nodes => do
    let now ← context
    follow job { ctx with imports := now.imports, staticImports := now.staticImports }
      (Markup.rootStops job.settings nodes)) job

/-- A compile is what surrounds a walk, around the walk with a stack. -/
theorem source_eq (job : Job) : source job = sourceBy (roots job) job := rfl

end Compile

end Stencil
