import Stencil.Proofs.Compile.Environment
import Stencil.Proofs.Context.Imports

/-!
# The context after a compile

A compile changes no more of its context than the imports: the scopes that it opens are closed again,
whatever stops it.

**The laws**: the context that a compile leaves, however it ends, is the initial one with the
implicit imports of the settings and then those of the template's import elements, in the order of the
source (`context_after_compile`). Compiling the template once more in that context gives the same answer and
leaves the same context (`compile_again`).

The imports are made before anything is looked up, and none of the steps up to there looks at the
context (`Acts`). So a compile is its second part, started in the context with the imports
(`exec_source_back`), and all that it does is determined by that (`compileTemplate_congr`). A context
that has these imports already is not changed by making them again (`prepared_prepared`).

**What it does not establish.** Only a second compile of the same template is spoken of: one of
another template in that context finds the imports of the first.
-/

namespace Stencil

open Markup (Attribute Element Node Laid)

/-! ## The order of the elements -/

namespace Markup

variable {source : List Char}

mutual

/-- The elements at a node and below it are in the order of the source. -/
theorem Node.Laid.elements_inOrder {node : Node} (h : node.Laid source) :
    node.elements.Pairwise fun a b => a.1.span.start < b.1.span.start := by
  cases node with
  | text value span => exact .nil
  | comment value span => exact .nil
  | element e children =>
    rw [Node.Laid] at h
    obtain ⟨-, htagged, -, hchildren⟩ := h
    have hproper := htagged.cuts.proper
    have hbegins := htagged.begins
    refine List.pairwise_cons.2 ⟨fun b hb => ?_, Laid.elements_inOrder hchildren⟩
    obtain ⟨hlo, -, -⟩ := hchildren.elements b hb
    dsimp only
    omega

/-- The elements of a forest, parents first, are in the order of the source. -/
theorem Laid.elements_inOrder {lo hi : Nat} {nodes : List Node} (h : Laid source lo hi nodes) :
    (elementsOf nodes).Pairwise fun a b => a.1.span.start < b.1.span.start := by
  cases nodes with
  | nil => exact .nil
  | cons node nodes =>
    rw [Laid] at h
    obtain ⟨-, hnode, hnodes⟩ := h
    refine List.pairwise_append.2 ⟨hnode.elements_inOrder, hnodes.elements_inOrder, fun a ha b hb => ?_⟩
    obtain ⟨-, hstop, hcuts⟩ := hnode.elements a ha
    obtain ⟨hstart, -, -⟩ := hnodes.elements b hb
    have hproper := hcuts.proper
    omega

end

end Markup

/-- The import elements of a template are in the order of the source. -/
theorem Compile.importElements_inOrder (settings : Settings) (source : List Char) :
    (importElements settings (Markup.Tree.ofSource source).nodes).Pairwise
      fun a b => a.span.start < b.span.start := by
  refine List.Pairwise.filter _ (List.pairwise_map.2 ?_)
  exact (Markup.laid_ofSource source).elements_inOrder

/-! ## What is imported -/

/-- The values that elements have for an attribute, as far as they have it. -/
def Markup.valuesOf (name : String) (es : List Element) : List String :=
  es.filterMap fun e => (e.attribute? name).map (·.value)

/-- The context in which a template with the given import elements is compiled. -/
def Context.prepared (ctx : Context) (settings : Settings) (es : List Element) : Context :=
  { ctx with
    imports := (ctx.imports.addAllImplicit settings.implicitImports).addAll
      (Markup.valuesOf "class" es)
    staticImports := ctx.staticImports.addAll (Markup.valuesOf "static" es) }

/-- Making the same imports twice is making them once. -/
theorem Context.prepared_prepared (ctx : Context) (settings : Settings) (es : List Element) :
    (ctx.prepared settings es).prepared settings es = ctx.prepared settings es := by
  simp only [prepared, Imports.addAll_addAllImplicit_again, Imports.addAll_addAll]

namespace Compile

variable {α : Type} {job : Job}

/-! ## Steps that do not look at the context -/

/-- The step does not fail. It changes the context by `f`, and what else it does is the same in every
context. -/
def Acts (f : Context → Context) (m : Compile Unit) : Prop :=
  ∀ (p : Progress) (ctx : Context),
    m.exec { p with context := ctx } = (.ok (), { (m.exec p).2 with context := f ctx })

/-- Two steps that do not look at the context, one after the other. -/
theorem Acts.bind {f g : Context → Context} {m n : Compile Unit} (hm : Acts f m) (hn : Acts g n) :
    Acts (fun ctx => g (f ctx)) (m >>= fun _ => n) := by
  intro p ctx
  have hp : m.exec p = (.ok (), { (m.exec p).2 with context := f p.context }) := hm p p.context
  rw [exec_bind_of_ok (hm p ctx), exec_bind_of_ok hp, hn _ (f ctx), hn _ (f p.context)]

/-- What is said of the markup does not depend on the context. -/
theorem acts_reportMarkups (job : Job) (errors : List Markup.MarkupError) :
    Acts id (errors.forM (reportMarkup job)) := by
  induction errors with
  | nil => exact fun _ _ => rfl
  | cons e errors ih =>
    have hfirst : Acts id (reportMarkup job e) := by
      unfold reportMarkup
      extract_lets details range
      split <;> exact fun _ _ => rfl
    exact hfirst.bind ih

/-- An import element imports its class and its static member, whatever the context is. -/
theorem acts_processImport (e : Element) : Acts
    (fun ctx => { ctx with
      imports := ctx.imports.addAll (Markup.valuesOf "class" [e])
      staticImports := ctx.staticImports.addAll (Markup.valuesOf "static" [e]) })
    (processImport e) := by
  unfold processImport Markup.valuesOf
  cases hclass : e.attribute? "class" <;> cases hstatic : e.attribute? "static" <;>
    simp only [List.filterMap_cons, List.filterMap_nil, hclass, hstatic, Option.map_none,
      Option.map_some] <;>
    exact fun _ _ => rfl

/-- The import elements import their classes and their static members. -/
theorem acts_processImports (es : List Element) : Acts
    (fun ctx => { ctx with
      imports := ctx.imports.addAll (Markup.valuesOf "class" es)
      staticImports := ctx.staticImports.addAll (Markup.valuesOf "static" es) })
    (es.forM processImport) := by
  induction es with
  | nil => exact fun _ _ => rfl
  | cons e es ih =>
    have hvalues (name : String) : Markup.valuesOf name (e :: es) =
        Markup.valuesOf name [e] ++ Markup.valuesOf name es := List.filterMap_append (l := [e])
    have hboth := (acts_processImport e).bind ih
    simp only [Imports.addAll, ← List.foldl_append, ← hvalues] at hboth
    exact hboth

/-! ## The two parts of a compile -/

/-- The steps in front of the walk. -/
def front (job : Job) : Compile Unit := do
  modifyContext (job.settings.implicitImports.foldl Context.addImplicitImport)
  (Markup.Tree.ofSource job.file.content).errors.forM (reportMarkup job)
  (importElements job.settings (Markup.Tree.ofSource job.file.content).nodes).forM processImport

/-- The walk and what follows it. -/
def back (job : Job) : Compile Compiled := do
  roots job (Markup.Tree.ofSource job.file.content).nodes
  let p ← get
  let template := String.ofList (Edit.applyAll job.file.content p.edits)
  say .debug s!"Compiled {job.file.url}: {p.result.expressions.length} expressions, {p.result.diagnostics.length} diagnostics"
  return { p.result with template }

/-- A compile is its first part and then its second. -/
theorem source_eq_front_back (job : Job) : source job = front job >>= fun _ => back job := by
  rw [front, bind_assoc]
  refine bind_congr fun _ => ?_
  rw [bind_assoc]
  rfl

/-- The steps in front of the walk make the imports. -/
theorem acts_front (job : Job) : Acts
    (fun ctx => ctx.prepared job.settings
      (importElements job.settings (Markup.Tree.ofSource job.file.content).nodes))
    (front job) := by
  have himplicit (names : List String) (ctx : Context) :
      names.foldl Context.addImplicitImport ctx =
        { ctx with imports := ctx.imports.addAllImplicit names } := by
    induction names generalizing ctx with
    | nil => rfl
    | cons name names ih => exact ih (ctx.addImplicitImport name)
  have hfirst : Acts (fun ctx => { ctx with
      imports := ctx.imports.addAllImplicit job.settings.implicitImports })
      (modifyContext (job.settings.implicitImports.foldl Context.addImplicitImport)) := by
    intro p ctx
    rw [exec_modifyContext, exec_modifyContext, himplicit]
  exact hfirst.bind ((acts_reportMarkups job _).bind (acts_processImports _))

/-- The environments of the stops start from the initial context with the imports of the settings and of
the template in it. -/
theorem prepared_of_front {ctx : Context} {q p : Progress}
    (hq : ((Markup.Tree.ofSource job.file.content).errors.forM (reportMarkup job)).exec
      { context := job.settings.implicitImports.foldl Context.addImplicitImport ctx } = (.ok (), q))
    (hp : ((importElements job.settings (Markup.Tree.ofSource job.file.content).nodes).forM
      processImport).exec q = (.ok (), p)) :
    ({ ctx with imports := p.context.imports, staticImports := p.context.staticImports } : Context) =
      ctx.prepared job.settings
        (importElements job.settings (Markup.Tree.ofSource job.file.content).nodes) := by
  have hfront := acts_front job { context := {} } ctx
  rw [front, exec_bind_of_ok (exec_modifyContext _ _), exec_bind_of_ok hq, hp] at hfront
  have hcontext : p.context = ctx.prepared job.settings
      (importElements job.settings (Markup.Tree.ofSource job.file.content).nodes) :=
    congrArg (fun run => run.2.context) hfront
  rw [hcontext]
  rfl

/-- The walk and what follows it leave the context as it is. -/
theorem keeps_back (job : Job) : Keeps (back job) := by
  have hroots : Keeps (roots job (Markup.Tree.ofSource job.file.content).nodes) := by
    rw [roots_eq]
    exact Keeps.bind (fun _ => rfl) fun base => keeps_follow base _
  exact hroots.bind fun _ => fun _ => rfl

/-- A compile is its second part, started in a context with the imports of the settings and of the
template. -/
theorem exec_source_back (job : Job) : ∃ q : Progress, ∀ ctx : Context,
    (source job).exec { context := ctx } = (back job).exec { q with
      context := ctx.prepared job.settings
        (importElements job.settings (Markup.Tree.ofSource job.file.content).nodes) } := by
  refine ⟨((front job).exec { context := {} }).2, fun ctx => ?_⟩
  rw [source_eq_front_back]
  exact exec_bind_of_ok (acts_front job { context := {} } ctx)

end Compile

/-! ## Afterwards -/

section

variable (settings : Settings) (url template : String) (ctx : Context)

/-- The elements of a template that only import something. -/
def importsOf (settings : Settings) (template : String) : List Element :=
  Compile.importElements settings (Markup.Tree.ofSource template.toList).nodes

/-- The context that a compile leaves is the one that it does everything in. -/
theorem compileTemplate_context :
    (compileTemplate settings url template ctx).context =
      ctx.prepared settings (importsOf settings template) := by
  obtain ⟨q, hq⟩ := Compile.exec_source_back ⟨settings, ⟨url, template.toList⟩⟩
  show ((Compile.source _).exec { context := ctx }).2.context = _
  rw [hq ctx]
  exact Compile.keeps_back _ _

/-- All that a compile does and leaves is determined by the context that it leaves. -/
theorem compileTemplate_congr {ctx ctx' : Context}
    (h : ctx.prepared settings (importsOf settings template) =
      ctx'.prepared settings (importsOf settings template)) :
    compileTemplate settings url template ctx = compileTemplate settings url template ctx' := by
  obtain ⟨q, hq⟩ := Compile.exec_source_back ⟨settings, ⟨url, template.toList⟩⟩
  have hrun : (Compile.source ⟨settings, ⟨url, template.toList⟩⟩).exec { context := ctx } =
      (Compile.source ⟨settings, ⟨url, template.toList⟩⟩).exec { context := ctx' } := by
    rw [hq ctx, hq ctx']
    exact congrArg (fun context => (Compile.back _).exec { q with context }) h
  exact congrArg (fun run => (⟨run.1, run.2.context, run.2.log⟩ : Outcome)) hrun

/-- Compiled once more, in the context that its compile has left, a template gives the same answer,
says the same, and leaves the context as it is. -/
theorem compile_again :
    compileTemplate settings url template (compileTemplate settings url template ctx).context =
      compileTemplate settings url template ctx := by
  apply compileTemplate_congr
  rw [compileTemplate_context, Context.prepared_prepared]

end

end Stencil
