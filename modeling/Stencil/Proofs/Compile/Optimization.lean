import Stencil.Proofs.Compile.Afterwards
import Stencil.Proofs.Compile.Argument
import Stencil.Proofs.Compile.RegionStop

/-!
# Passing bindings through is an optimisation

**The law** (`optimization_leaves_out_entries`): a compile that passes simple bindings through and one
that does not either fail with the same error or both succeed, with the same diagnostics. They go
through the same stops, and at each of them the same is met: an expression, diagnostics, or nothing.
The two only differ in what becomes of an expression whose text is simple: one leaves the binding as
it is, the other enters the expression. So the expressions of the one are those of the other with
those of the passed-through bindings left out, apart from their numbers.

What is met at a stop does not depend on what was met before, apart from the number in the name of an
expression. So the two compiles are not compared with one another: each is compared with the list of
what is met at the stops (`Meets`, `meets_follow`, `meets_source`). That an expression is there to
enter, and nothing to report, rests on the names: a text that is the name of a member or of a variable
can be read, and resolves without a problem (`resolved_of_passesThrough`).

**What it does not establish.** The two compiled templates are not compared as texts, since the
numbers in the calls differ. And a context with a member whose name is not one is excluded
(`Context.Named`): its text passes through without being looked at, and cannot be read as an
expression.
-/

namespace Stencil

open Markup (Attribute Element Node)
open Token (IsName)

/-! ## The names of loop variables -/

namespace Markup

variable {settings : Settings} {s : Stop} {a : Attribute}

mutual

/-- The loops that a stop at a node is in are those around the node and those of its elements. -/
theorem Node.loops_subset {loops : List Attribute} {node : Node} (h : s ∈ node.stops settings loops)
    (ha : a ∈ s.loops) : a ∈ loops ∨ ∃ e ∈ node.elements, e.1.loop? = some a := by
  cases node with
  | text value span => cases h
  | comment value span => cases h
  | element e children =>
    have hhere (ha : a ∈ loops ++ e.loop?.toList) :
        a ∈ loops ∨ ∃ d ∈ (Node.element e children).elements, d.1.loop? = some a := by
      rcases List.mem_append.1 ha with ha | ha
      · exact .inl ha
      · exact .inr ⟨(e, children), List.mem_cons_self, Option.mem_toList.1 ha⟩
    rw [Node.stops] at h
    split at h
    · cases h
    · rcases List.mem_append.1 h with h | h
      · obtain ⟨task, -, rfl⟩ := List.mem_map.1 h
        exact hhere ha
      · rcases loops_subset h ha with ha | ⟨d, hd, hloop⟩
        · exact hhere ha
        · exact .inr ⟨d, List.mem_cons_of_mem _ hd, hloop⟩

/-- The loops that a stop in a forest is in are those around the forest and those of its elements. -/
theorem loops_subset {loops : List Attribute} {nodes : List Node} (h : s ∈ stops settings loops nodes)
    (ha : a ∈ s.loops) : a ∈ loops ∨ ∃ e ∈ elementsOf nodes, e.1.loop? = some a := by
  cases nodes with
  | nil => cases h
  | cons node nodes =>
    rw [stops] at h
    rcases List.mem_append.1 h with h | h
    · exact (Node.loops_subset h ha).imp_right fun ⟨e, he, hloop⟩ =>
        ⟨e, List.mem_append_left _ he, hloop⟩
    · exact (loops_subset h ha).imp_right fun ⟨e, he, hloop⟩ =>
        ⟨e, List.mem_append_right _ he, hloop⟩

end

/-- The loops that a stop is in are loops of elements of the template. -/
theorem loops_subset_root {nodes : List Node} (h : s ∈ rootStops settings nodes) (ha : a ∈ s.loops) :
    ∃ e ∈ elementsOf nodes, e.1.loop? = some a := by
  obtain ⟨node, hnode, h⟩ := List.mem_flatMap.1 h
  rcases List.mem_append.1 h with h | h
  · obtain ⟨place, -, rfl⟩ := List.mem_map.1 h
    cases ha
  · rcases Node.loops_subset h ha with ha | ⟨e, he, hloop⟩
    · cases ha
    · exact ⟨e, mem_elementsOf.2 ⟨node, hnode, he⟩, hloop⟩

end Markup

namespace Context

/-- The names of the variables of a loop do not depend on the context. -/
theorem names_loopScope (ctx ctx' : Context) (a : Attribute) :
    (ctx.loopScope a).map (·.name) = (ctx'.loopScope a).map (·.name) := by
  unfold loopScope LoopDefinition.parse
  cases LoopDefinition.read a.value.toList with
  | error fault => rfl
  | ok read =>
    dsimp only
    simp only [List.map_reverse, List.map_map]
    rfl

/-- Inside of loops whose variables have names, all that is in scope has one. -/
theorem Named.within {ctx : Context} (h : ctx.Named) {loops : List Attribute}
    (hloops : ∀ a ∈ loops, ∀ v ∈ ctx.loopScope a, IsName v.name) : (ctx.within loops).Named where
  properties := h.properties
  methods := h.methods
  scopes := by
    intro scope hscope v hv
    have hscopes : (ctx.within loops).scopes = (loops.map ctx.loopScope).reverse ++ ctx.scopes :=
      List.append_assoc ..
    rw [hscopes] at hscope
    rcases List.mem_append.1 hscope with hscope | hscope
    · obtain ⟨a, ha, rfl⟩ := List.mem_map.1 (List.mem_reverse.1 hscope)
      exact hloops a ha v hv
    · exact h.scopes scope hscope v hv

end Context

/-! ## What is met at a stop -/

/-- The settings with the optimisation switched on or off. -/
def Settings.optimizing (settings : Settings) (on : Bool) : Settings :=
  { settings with optimizeSimpleBindings := on }

/-- The job with the optimisation switched on or off. -/
def Job.optimizing (job : Job) (on : Bool) : Job :=
  { job with settings := job.settings.optimizing on }

/-- The expression apart from its name. -/
def TemplateExpression.unnamed (entry : TemplateExpression) : TemplateExpression :=
  { entry with id := "" }

/-- What is met at a stop. -/
structure Encounter where
  /-- The expression, apart from its name. -/
  expression? : Option TemplateExpression := none
  /-- The binding that can be passed through in place of the expression. -/
  passed? : Option PassThrough := none
  diagnostics : List Diagnostic := []

namespace Encounter

/-- The expression that is entered. -/
def entered? (x : Encounter) (on : Bool) : Option TemplateExpression :=
  if on && x.passed?.isSome then none else x.expression?

/-- The binding that is passed through. -/
def kept? (x : Encounter) (on : Bool) : Option PassThrough := if on then x.passed? else none

/-- A binding that can be passed through is the text of the place. It has an expression, which was
entered for the place, and there is nothing to report. -/
def Sound (job : Job) (env : Context) (place : Place) (x : Encounter) : Prop :=
  ∀ b, x.passed? = some b → x.diagnostics = [] ∧
    (∃ text, place.Writes env text ∧ b.text = Text.trimString text) ∧
    ∃ entry tree r, x.expression? = some entry ∧ entry.kind = b.kind ∧
      Expr.parse b.text = .ok tree ∧ place.Enters job env tree r entry

/-- Where nothing can be passed through, there is nothing to ask for. -/
theorem sound_of_none {job : Job} {env : Context} {place : Place} {x : Encounter}
    (h : x.passed? = none) : x.Sound job env place := by
  intro b hb
  rw [h] at hb
  cases hb

/-- Between two results, what was met was added. -/
structure Added (met : List Encounter) (on : Bool) (c d : Compiled) : Prop where
  expressions : d.expressions.map (·.unnamed) =
    c.expressions.map (·.unnamed) ++ met.filterMap (·.entered? on)
  passThroughs : d.passThroughs = c.passThroughs ++ met.filterMap (·.kept? on)
  diagnostics : d.diagnostics = c.diagnostics ++ met.flatMap (·.diagnostics)

theorem Added.refl (on : Bool) (c : Compiled) : Added [] on c c :=
  ⟨(List.append_nil _).symm, (List.append_nil _).symm, (List.append_nil _).symm⟩

/-- What was added in two steps, one after the other. -/
theorem Added.trans {xs ys : List Encounter} {on : Bool} {c d e : Compiled} (h : Added xs on c d)
    (h' : Added ys on d e) : Added (xs ++ ys) on c e where
  expressions := by rw [h'.expressions, h.expressions, List.append_assoc, List.filterMap_append]
  passThroughs := by rw [h'.passThroughs, h.passThroughs, List.append_assoc, List.filterMap_append]
  diagnostics := by rw [h'.diagnostics, h.diagnostics, List.append_assoc, List.flatMap_append]

/-- Diagnostics alone were added. -/
theorem added_diagnostics (ds : List Diagnostic) (on : Bool) (c : Compiled) :
    Added [{ diagnostics := ds }] on c { c with diagnostics := c.diagnostics ++ ds } := by
  refine ⟨?_, ?_, by simp⟩ <;> cases on <;> exact (List.append_nil _).symm

end Encounter

/-! The stops do not depend on the optimisation. -/

namespace Markup

mutual

/-- The optimisation does not matter to the stops at a node. -/
theorem Node.stops_optimizing (settings : Settings) (on : Bool) (loops : List Attribute)
    (node : Node) : node.stops (settings.optimizing on) loops = node.stops settings loops := by
  cases node with
  | text value span => rfl
  | comment value span => rfl
  | element e children =>
    have himport : Compile.isImport (settings.optimizing on) e = Compile.isImport settings e := rfl
    rw [Node.stops, Node.stops, himport]
    dsimp only
    rw [stops_optimizing]

/-- The optimisation does not matter to the stops in a forest. -/
theorem stops_optimizing (settings : Settings) (on : Bool) (loops : List Attribute)
    (nodes : List Node) : stops (settings.optimizing on) loops nodes = stops settings loops nodes := by
  cases nodes with
  | nil => rfl
  | cons node nodes => rw [stops, stops, Node.stops_optimizing, stops_optimizing]

end

/-- The optimisation does not matter to the stops of a template. -/
theorem rootStops_optimizing (settings : Settings) (on : Bool) (nodes : List Node) :
    rootStops (settings.optimizing on) nodes = rootStops settings nodes := by
  simp only [rootStops, Node.stops_optimizing]

end Markup

namespace Compile

variable {α β : Type} {job : Job} {env : Context} {place : Place}

/-- The run fails with the error, or it succeeds and adds to the result what is met. -/
def Agrees (met : Except CompileError Encounter) (on : Bool) (c : Compiled)
    (run : Except CompileError α × Progress) : Prop :=
  match met with
  | .error error => run.1 = .error error
  | .ok x => (∃ a, run.1 = .ok a) ∧ Encounter.Added [x] on c run.2.result

/-- Only the answer and the result count. -/
theorem Agrees.congr {met : Except CompileError Encounter} {on : Bool} {c : Compiled}
    {run run' : Except CompileError α × Progress} (h : Agrees met on c run) (hanswer : run'.1 = run.1)
    (hresult : run'.2.result = run.2.result) : Agrees met on c run' := by
  unfold Agrees at h ⊢
  rwa [hanswer, hresult]

/-- All runs of the step in the environment, with and without the optimisation, agree with what is
met. -/
def Meets (env : Context) (met : Except CompileError Encounter) (step : Bool → Compile α) : Prop :=
  ∀ on p, p.context = env → Agrees met on p.result ((step on).exec p)

/-- A step that only reports meets its diagnostics. -/
theorem Tells.meets {ds : List Diagnostic} {step : Bool → Compile Unit} (h : ∀ on, Tells ds (step on)) :
    Meets env (.ok { diagnostics := ds }) step := by
  intro on p _
  obtain ⟨q, hq, hresult⟩ := h on p
  rw [hq]
  exact ⟨⟨(), rfl⟩, hresult ▸ Encounter.added_diagnostics ds on p.result⟩

/-- What no result shows may follow. -/
theorem Meets.bind {met : Except CompileError Encounter} {step : Bool → Compile α}
    {f : Bool → α → Compile β} (h : Meets env met step)
    (hf : ∀ on a p, ∃ b q, (f on a).exec p = (.ok b, q) ∧ q.result = p.result) :
    Meets env met fun on => step on >>= f on := by
  intro on p hp
  have hstep := h on p hp
  dsimp only
  rcases hrun : (step on).exec p with ⟨answer, q⟩
  rw [hrun] at hstep
  cases met with
  | error error =>
    obtain rfl : answer = .error error := hstep
    rw [exec_bind_of_error hrun]
    rfl
  | ok x =>
    obtain ⟨⟨a, rfl⟩, hadded⟩ := hstep
    obtain ⟨b, r, hr, hresult⟩ := hf on a q
    rw [exec_bind_of_ok hrun, hr]
    exact ⟨⟨b, rfl⟩, hresult ▸ hadded⟩

/-- What is said in front does not matter. -/
theorem Meets.afterSay {met : Except CompileError Encounter} {step : Bool → Compile α}
    (h : Meets env met step) (level : LogLevel) (message : String) :
    Meets env met (fun on => do say level message; step on) := by
  intro on p hp
  dsimp only
  rw [exec_bind_of_ok (exec_say level message p)]
  exact h on { p with log := p.log ++ [⟨level, message⟩] } hp

/-! ## Sites -/

/-- The expression that a tree comes to at a site, apart from its name. -/
def entryFor (job : Job) (env : Context) (s : BindingSite) (tree : Expr) : TemplateExpression :=
  let r := env.resolve job.settings.eventParameter s.prop?.isNone tree
  (({} : Compiled).nextExpression "" r.expression.print (r.castType.getD s.expectedType)
    s.prop?.isSome s.kind r.parameters).unnamed

/-- An expression that can be read and resolves without a problem is entered. -/
theorem exec_exprText_of_resolved (job : Job) {s : BindingSite} {text : String} {tree : Expr}
    (hparse : Expr.parse text = .ok tree)
    (hproblems : (env.resolve job.settings.eventParameter s.prop?.isNone tree).problems = [])
    {p : Progress} (hp : p.context = env) : ∃ call q entry,
      (exprText job s text).exec p = (.ok call, q) ∧
      q.result = p.result.addExpression entry ∧ entry.unnamed = entryFor job env s tree := by
  subst hp
  unfold exprText
  rw [hparse]
  dsimp only
  unfold expr
  rw [exec_bind_of_ok (exec_context p), if_pos (by rw [hproblems]; rfl),
    exec_bind_of_ok (exec_get p), exec_bind_of_ok (exec_modifyResult ..),
    exec_bind_of_ok (exec_say ..)]
  exact ⟨_, _, _, rfl, rfl, rfl⟩

/-- An expression with problems stays as it is written, and each of the problems is reported. -/
theorem exec_exprText_of_problems (job : Job) {s : BindingSite} {text : String} {tree : Expr}
    (hparse : Expr.parse text = .ok tree)
    (hproblems : (env.resolve job.settings.eventParameter s.prop?.isNone tree).problems ≠ [])
    {p : Progress} (hp : p.context = env) : ∃ q, (exprText job s text).exec p = (.ok text, q) ∧
      q.result = { p.result with diagnostics := p.result.diagnostics ++
        (env.resolve job.settings.eventParameter s.prop?.isNone tree).problems.map fun problem =>
          ⟨problem.message, some text, some (SourceRange.ofSpan job.file s.span)⟩ } := by
  subst hp
  obtain ⟨q, hq, hresult⟩ := tells_problems job (·.message) text s.span
    (p.context.resolve job.settings.eventParameter s.prop?.isNone tree).problems p
  refine ⟨q, ?_, hresult⟩
  unfold exprText
  rw [hparse]
  dsimp only
  unfold expr
  rw [exec_bind_of_ok (exec_context p), if_neg (by rwa [List.isEmpty_iff])]
  exact exec_bind_of_ok hq

/-- Where nothing is passed through, what is met is the expression that is entered. -/
theorem agrees_exprText {s : BindingSite} {text : String} {tree : Expr} {x : Encounter} {on : Bool}
    (hparse : Expr.parse text = .ok tree)
    (hproblems : (env.resolve job.settings.eventParameter s.prop?.isNone tree).problems = [])
    (hentered : x.entered? on = some (entryFor job env s tree)) (hkept : x.kept? on = none)
    (hdiagnostics : x.diagnostics = []) {p : Progress} (hp : p.context = env) :
    Agrees (.ok x) on p.result ((exprText (job.optimizing on) s text).exec p) := by
  obtain ⟨call, q, entry, hq, hresult, hentry⟩ :=
    exec_exprText_of_resolved (job.optimizing on) hparse hproblems hp
  replace hentry : entry.unnamed = entryFor job env s tree := hentry
  rw [hq]
  refine ⟨⟨call, rfl⟩, ?_⟩
  rw [hresult]
  refine ⟨?_, ?_, ?_⟩
  · simp [Compiled.addExpression, hentered, hentry]
  · simp [Compiled.addExpression, hkept]
  · simp [Compiled.addExpression, hdiagnostics]

/-- Where nothing is passed through, the optimisation makes no difference. -/
theorem meets_exprText (job : Job) (env : Context) (s : BindingSite) (text : String) :
    ∃ met, Meets env met (fun on => exprText (job.optimizing on) s text) ∧
      ∀ x, met = .ok x → x.passed? = none := by
  cases hparse : Expr.parse text with
  | error cause =>
    refine ⟨.error (.expression text cause), fun on p _ => ?_, nofun⟩
    unfold exprText
    rw [hparse]
    rfl
  | ok tree =>
    let r := env.resolve job.settings.eventParameter s.prop?.isNone tree
    by_cases hproblems : r.problems = []
    · refine ⟨.ok { expression? := some (entryFor job env s tree) }, fun on p hp => ?_, ?_⟩
      · exact agrees_exprText hparse hproblems (by cases on <;> rfl) (by cases on <;> rfl) rfl hp
      · rintro _ ⟨⟩
        rfl
    · refine ⟨.ok { diagnostics := r.problems.map fun problem =>
        ⟨problem.message, some text, some (SourceRange.ofSpan job.file s.span)⟩ }, fun on p hp => ?_, ?_⟩
      · obtain ⟨q, hq, hresult⟩ := exec_exprText_of_problems (job.optimizing on) hparse hproblems hp
        rw [hq]
        exact ⟨⟨text, rfl⟩, hresult ▸ Encounter.added_diagnostics _ on p.result⟩
      · rintro _ ⟨⟩
        rfl

/-- Compiles a text that is not refused for its first character. -/
def passOrEnter (job : Job) (s : BindingSite) (text : String) : Compile String := do
  if (← context).passesThrough job.settings s text then
    say .debug s!"Passing \"{text}\" through unprocessed"
    modifyResult (·.addPassThrough ⟨text, s.kind⟩)
    return text
  else exprText job s text

/-- What the first character of a text decides. It is the same for every job. -/
theorem site_forms (s : BindingSite) (written : String) :
    (∃ message, ∀ job, site job s written = do
      report job message (job.sourceText s.span) s.span
      return "") ∨
    (∃ message, ∀ job, site job s written = do
      report job message (Text.trimString written) s.span
      return Text.trimString written) ∨
    (∀ job, site job s written = pure "") ∨
    ∀ job, site job s written = passOrEnter job s (Text.trimString written) := by
  unfold site
  extract_lets text
  split
  · cases hmessage : s.emptyMessage? with
    | some message => exact .inl ⟨message, fun job => rfl⟩
    | none => exact .inr (.inr (.inl fun job => rfl))
  · exact .inr (.inl ⟨objectLiteralMessage, fun job => rfl⟩)
  · exact .inr (.inl ⟨arrayLiteralMessage, fun job => rfl⟩)
  · exact .inr (.inr (.inr fun job => rfl))

/-- A text that names a member or a variable, or calls a method, can be read, and resolves without a
problem. -/
theorem resolved_of_passesThrough {settings : Settings} {s : BindingSite} {text : String}
    (hnamed : env.Named) (hpasses : env.passesThrough settings s text = true) :
    ∃ tree, Expr.parse text = .ok tree ∧
      (env.resolve settings.eventParameter s.prop?.isNone tree).problems = [] := by
  simp only [Context.passesThrough, Bool.and_eq_true, bne_iff_ne] at hpasses
  obtain ⟨⟨-, hne⟩, hsimple⟩ := hpasses
  rcases hnamed.cases_of_isSimple hsimple with ⟨hname, hfind⟩ | ⟨n, rfl, hname, hmethod⟩
  · obtain ⟨span, hparse⟩ := Expr.parse_name hname
    exact ⟨_, hparse, (Context.resolve_name _ span hname hne hfind).1⟩
  · obtain ⟨span, hparse⟩ := Expr.parse_call hname
    exact ⟨_, hparse, (Context.resolve_call _ _ span hmethod).1⟩

/-- Compiling a text that may be passed through. -/
theorem meets_passOrEnter {written : String} (hnamed : env.Named) (s : BindingSite)
    (hwritten : place.Writes env written) : ∃ met,
      Meets env met (fun on => passOrEnter (job.optimizing on) s (Text.trimString written)) ∧
      ∀ x, met = .ok x → x.Sound job env place := by
  -- A text that would be passed through has an expression as well, so both runs agree with one
  -- encounter.
  by_cases hpasses :
      env.passesThrough (job.optimizing true).settings s (Text.trimString written) = true
  · obtain ⟨tree, hparse, hproblems⟩ := resolved_of_passesThrough hnamed hpasses
    refine ⟨.ok { expression? := some (entryFor job env s tree)
                  passed? := some ⟨Text.trimString written, s.kind⟩ }, fun on p hp => ?_, ?_⟩
    · dsimp only [passOrEnter]
      rw [exec_bind_of_ok (exec_context p), hp]
      cases on with
      | true =>
        rw [if_pos hpasses]
        exact ⟨⟨_, rfl⟩, (List.append_nil _).symm, rfl, (List.append_nil _).symm⟩
      | false =>
        rw [if_neg (by exact Bool.false_ne_true)]
        exact agrees_exprText hparse hproblems rfl rfl rfl hp
    · rintro _ ⟨⟩ b ⟨⟩
      exact ⟨rfl, ⟨written, hwritten, rfl⟩, _, tree, _, rfl, rfl, hparse,
        ⟨written, hwritten, hparse⟩, ⟨_, rfl⟩, hproblems, rfl, rfl⟩
  · obtain ⟨met, hmet, hnone⟩ := meets_exprText job env s (Text.trimString written)
    refine ⟨met, fun on p hp => ?_, fun x hx => Encounter.sound_of_none (hnone x hx)⟩
    have hnot : ¬ env.passesThrough (job.optimizing on).settings s (Text.trimString written) = true := by
      cases on with
      | true => exact hpasses
      | false => exact Bool.false_ne_true
    dsimp only [passOrEnter]
    rw [exec_bind_of_ok (exec_context p), hp, if_neg hnot]
    exact hmet on p hp

/-- A report, and then a text in the place of the site. -/
theorem meets_report (env : Context) (s : BindingSite) (message context text : String) : ∃ met,
    Meets env met (fun on => do
      report (job.optimizing on) message context s.span
      return text) ∧
    ∀ x, met = .ok x → x.Sound job env place := by
  have htells (on : Bool) : Tells _ (report (job.optimizing on) message context s.span) :=
    tells_report job message context s.span
  refine ⟨_, (Tells.meets htells).bind fun _ _ p => ⟨text, p, rfl, rfl⟩, ?_⟩
  rintro _ ⟨⟩
  exact Encounter.sound_of_none rfl

/-- Compiling the text at a site. -/
theorem meets_site (job : Job) (place : Place) {written : String} (hnamed : env.Named) (s : BindingSite)
    (hwritten : place.Writes env written) : ∃ met,
      Meets env met (fun on => site (job.optimizing on) s written) ∧
      ∀ x, met = .ok x → x.Sound job env place := by
  rcases site_forms s written with ⟨message, h⟩ | ⟨message, h⟩ | h | h
  · simp only [h]
    exact meets_report env s message (job.sourceText s.span) ""
  · simp only [h]
    exact meets_report env s message _ _
  · simp only [h]
    refine ⟨.ok {}, (Tells.meets fun on => tells_pure).bind fun _ _ p => ⟨"", p, rfl, rfl⟩, ?_⟩
    rintro _ ⟨⟩
    exact Encounter.sound_of_none rfl
  · simp only [h]
    exact meets_passOrEnter hnamed s hwritten

/-! ## Stops -/

/-- An attribute gets its new value, if it has one. -/
theorem exec_setValue_result (a : Attribute) (text : String) (p : Progress) :
    ∃ b q, (setValue a text).exec p = (.ok b, q) ∧ q.result = p.result := by
  unfold setValue
  split
  · split <;> exact ⟨(), _, rfl, rfl⟩
  · exact ⟨(), p, rfl, rfl⟩

/-- A plain attribute is at most reported. -/
theorem tells_plain (job : Job) (prop : Option DeclaredProp) (a : Attribute) :
    ∃ ds, ∀ on, Tells ds (value (job.optimizing on) .plain prop a) := by
  unfold value
  simp only [if_true]
  cases prop with
  | none => exact ⟨[], fun _ => tells_pure⟩
  | some prop =>
    dsimp only
    cases prop.type.isString with
    | true => exact ⟨[], fun _ => tells_pure⟩
    | false => exact ⟨_, fun _ => tells_report job (plainPropMessage prop) (job.sourceText a.span) a.span⟩

/-- Missing props are at most reported. -/
theorem tells_checkRequiredProps (job : Job) (child : ChildComponent) (passed : List String)
    (e : Element) : ∃ ds, ∀ on, Tells ds (checkRequiredProps (job.optimizing on) child passed e) := by
  unfold checkRequiredProps
  extract_lets missing
  cases missing.isEmpty with
  | true => exact ⟨[], fun _ => tells_pure⟩
  | false =>
    exact ⟨_, fun _ => tells_report job (missingPropsMessage child missing) (job.sourceText e.startSpan)
      e.startSpan⟩

/-- Compiling the expression at a place. -/
theorem meets_placeStep (job : Job) (hnamed : env.Named) (place : Place) : ∃ met,
    Meets env met (fun on => placeStep (job.optimizing on) env place) ∧
    ∀ x, met = .ok x → x.Sound job env place := by
  cases place with
  | loop e a =>
    cases hparse : LoopDefinition.parse env a.value with
    | error error =>
      simp only [placeStep_loop_of_error _ hparse]
      exact ⟨.error (.loop error), fun _ _ _ => rfl, nofun⟩
    | ok definition =>
      simp only [placeStep_loop_of_ok _ hparse, iterable]
      obtain ⟨met, hmet, hsound⟩ := meets_site job (.loop e a) hnamed
        ⟨some .loop, none, definition.iterableType, valueSpan a⟩ ⟨definition, hparse, rfl⟩
      have hset := hmet.bind fun _ text p => exec_setValue_result a (definition.render text) p
      exact ⟨met, hset.afterSay .debug s!"Entered loop scope with {definition.head}", hsound⟩
  | value e a =>
    by_cases hplain : AttributeKind.ofName a.name = .plain
    · obtain ⟨ds, htells⟩ := tells_plain job (passedProp? env (childOf? env e) a) a
      rw [← hplain] at htells
      refine ⟨.ok { diagnostics := ds }, Tells.meets htells, ?_⟩
      rintro _ ⟨⟩
      exact Encounter.sound_of_none rfl
    · obtain ⟨met, hmet, hsound⟩ := meets_site job (.value e a) hnamed
        ⟨some (AttributeKind.ofName a.name), passedProp? env (childOf? env e) a,
          (AttributeKind.ofName a.name).expectedType (passedProp? env (childOf? env e) a),
          valueSpan a⟩ rfl
      have hset := hmet.bind fun _ text p => exec_setValue_result a text p
      refine ⟨met, ?_, hsound⟩
      unfold placeStep value
      simp only [if_neg hplain]
      exact hset
  | marker offset m =>
    obtain ⟨met, hmet, hsound⟩ := meets_site job (.marker offset m) hnamed
      ⟨none, none, .string, m.span offset⟩ rfl
    refine ⟨met, hmet.bind fun _ text p => ?_, hsound⟩
    split
    · exact ⟨(), _, rfl, rfl⟩
    · exact ⟨(), p, rfl, rfl⟩

/-- Doing a task. -/
theorem meets_taskStep (job : Job) (hnamed : env.Named) (task : Task) : ∃ met,
    Meets env met (fun on => taskStep (job.optimizing on) env task) ∧
    ∀ x, met = .ok x → ∀ b, x.passed? = some b →
      ∃ place, task = .site place ∧ x.Sound job env place := by
  have htold {ds : List Diagnostic} {step : Bool → Compile Unit} (h : ∀ on, Tells ds (step on)) :
      ∃ met, Meets env met step ∧ ∀ x, met = .ok x → ∀ b, x.passed? = some b →
        ∃ place, task = .site place ∧ x.Sound job env place := by
    refine ⟨_, Tells.meets h, ?_⟩
    rintro _ ⟨⟩
    exact nofun
  cases task with
  | site place =>
    obtain ⟨met, hmet, hsound⟩ := meets_placeStep job hnamed place
    exact ⟨met, hmet, fun x hx b hb => ⟨place, rfl, hsound x hx⟩⟩
  | plain e a =>
    obtain ⟨ds, htells⟩ := tells_plain job (passedProp? env (childOf? env e) a) a
    exact htold htells
  | required e =>
    cases hchild : childOf? env e with
    | none =>
      simp only [taskStep, hchild]
      exact htold fun _ => tells_pure
    | some child =>
      simp only [taskStep, hchild]
      obtain ⟨ds, htells⟩ := tells_checkRequiredProps job child (passedNames env e e.attributes) e
      exact htold htells

/-! ## The whole walk -/

/-- What is met at the stops of a walk, stop by stop. Only at a place there may be a binding to pass
through. -/
def SoundAt (job : Job) (base : Context) (met : List (Stop × Encounter)) : Prop :=
  ∀ x ∈ met, ∀ b, x.2.passed? = some b →
    ∃ place, x.1.task = .site place ∧ x.2.Sound job (base.within x.1.loops) place

/-- Going from stop to stop: either all runs fail with the same error, or they all succeed and differ
in no more than what becomes of the bindings that can be passed through. -/
theorem meets_follow (job : Job) (base : Context) (stops : List Stop)
    (hnamed : ∀ s ∈ stops, (base.within s.loops).Named) :
    (∃ error, ∀ on p, ((follow (job.optimizing on) base stops).exec p).1 = .error error) ∨
    ∃ met : List (Stop × Encounter), met.map (·.1) = stops ∧ SoundAt job base met ∧
      ∀ on p, ∃ q, (follow (job.optimizing on) base stops).exec p = (.ok (), q) ∧
        Encounter.Added (met.map (·.2)) on p.result q.result := by
  -- By induction on the stops. Every run fails at the first stop where one does, since what is met
  -- there is the same.
  induction stops with
  | nil => exact .inr ⟨[], rfl, List.forall_mem_nil _, fun on p => ⟨p, rfl, .refl on p.result⟩⟩
  | cons stop stops ih =>
    obtain ⟨hhere, hbehind⟩ := List.forall_mem_cons.1 hnamed
    obtain ⟨first, hmeets, hsound⟩ := meets_taskStep job hhere stop.task
    simp only [follow_cons]
    have hfirst (on : Bool) (p : Progress) : Agrees first on p.result
        ((inEnvironment (base.within stop.loops)
          (taskStep (job.optimizing on) (base.within stop.loops) stop.task)).exec p) :=
      (hmeets on { p with context := base.within stop.loops } rfl).congr rfl rfl
    cases first with
    | error error =>
      refine .inl ⟨error, fun on p => ?_⟩
      rw [exec_bind_of_error (Prod.ext (hfirst on p) rfl)]
    | ok x =>
      have hstep (on : Bool) (p : Progress) : ∃ q, (inEnvironment (base.within stop.loops)
          (taskStep (job.optimizing on) (base.within stop.loops) stop.task)).exec p = (.ok (), q) ∧
          Encounter.Added [x] on p.result q.result := by
        obtain ⟨⟨_, hok⟩, hadded⟩ := hfirst on p
        exact ⟨_, Prod.ext hok rfl, hadded⟩
      rcases ih hbehind with ⟨error, hfails⟩ | ⟨met, hstops, hsounds, hsucceeds⟩
      · refine .inl ⟨error, fun on p => ?_⟩
        obtain ⟨q, hq, -⟩ := hstep on p
        rw [exec_bind_of_ok hq]
        exact hfails on q
      · refine .inr ⟨(stop, x) :: met, by rw [List.map_cons, hstops],
          List.forall_mem_cons.2 ⟨hsound x rfl, hsounds⟩, fun on p => ?_⟩
        obtain ⟨q, hq, hadded⟩ := hstep on p
        obtain ⟨r, hr, hrest⟩ := hsucceeds on q
        exact ⟨r, (exec_bind_of_ok hq).trans hr, hadded.trans hrest⟩

/-! ## The whole compile -/

/-- The steps in front of the walk leave nothing but diagnostics. -/
theorem tells_front (job : Job) : ∃ ms, Tells ms (front job) := by
  obtain ⟨ms, hmarkup, -⟩ :=
    tells_reportMarkups job (Markup.Tree.ofSource job.file.content).errors
  have himplicit : Tells []
      (modifyContext (job.settings.implicitImports.foldl Context.addImplicitImport)) :=
    tells_nothing fun p => ⟨_, rfl, rfl⟩
  exact ⟨_, himplicit.bind (hmarkup.bind (tells_imports _))⟩

/-- At the stops of a compile, all that is in scope has a name. -/
theorem named_at_stops {settings : Settings} {ctx : Context} {nodes : List Node} (hnamed : ctx.Named)
    (hloops : ∀ e ∈ Markup.elementsOf nodes, ∀ a ∈ e.1.loop?, ∀ v ∈ ctx.loopScope a, IsName v.name)
    (es : List Element) : ∀ s ∈ Markup.rootStops settings nodes,
      ((ctx.prepared settings es).within s.loops).Named := by
  intro s hs
  have hbase : (ctx.prepared settings es).Named :=
    ⟨hnamed.properties, hnamed.methods, hnamed.scopes⟩
  refine hbase.within fun a ha v hv => ?_
  obtain ⟨e, he, hloop⟩ := Markup.loops_subset_root hs ha
  have hname : v.name ∈ (ctx.loopScope a).map (·.name) :=
    ctx.names_loopScope (ctx.prepared settings es) a ▸ List.mem_map_of_mem hv
  obtain ⟨w, hw, hname⟩ := List.mem_map.1 hname
  exact hname ▸ hloops e he a hloop w hw

/-- The walk goes from stop to stop. The stops are the same with and without the optimisation. -/
theorem exec_roots_optimizing (job : Job) (on : Bool) (nodes : List Node) (p : Progress) :
    (roots (job.optimizing on) nodes).exec p =
      (follow (job.optimizing on) p.context (Markup.rootStops job.settings nodes)).exec p := by
  rw [roots_eq, exec_bind_of_ok (exec_context p)]
  exact congrArg (fun stops => (follow (job.optimizing on) p.context stops).exec p)
    (Markup.rootStops_optimizing job.settings on nodes)

/-- A compile fails where its walk fails. -/
theorem back_of_error {error : CompileError} {p : Progress}
    (h : ((roots job (Markup.Tree.ofSource job.file.content).nodes).exec p).1 = .error error) :
    ((back job).exec p).1 = .error error := by
  unfold back
  rw [exec_bind_of_error (Prod.ext h rfl)]

/-- Behind the walk, only the template is added. -/
theorem back_of_ok {p q : Progress}
    (h : (roots job (Markup.Tree.ofSource job.file.content).nodes).exec p = (.ok (), q)) :
    ((back job).exec p).1 = .ok { q.result with
      template := String.ofList (Edit.applyAll job.file.content q.edits) } := by
  unfold back
  rw [exec_bind_of_ok h, exec_bind_of_ok (exec_get q)]
  dsimp only
  rw [exec_bind_of_ok (exec_say _ _ _)]
  rfl

/-- A whole compile: either it fails with the same error with and without the optimisation, or what is
met at the stops stands behind what is said of the markup. -/
theorem meets_source (job : Job) {ctx : Context} (hnamed : ctx.Named)
    (hloops : ∀ e ∈ Markup.elementsOf (Markup.Tree.ofSource job.file.content).nodes,
      ∀ a ∈ e.1.loop?, ∀ v ∈ ctx.loopScope a, IsName v.name) :
    let nodes := (Markup.Tree.ofSource job.file.content).nodes
    let base := ctx.prepared job.settings (importElements job.settings nodes)
    (∃ error, ∀ on, ((source (job.optimizing on)).exec { context := ctx }).1 = .error error) ∨
    ∃ (met : List (Stop × Encounter)) (ms : List Diagnostic),
      met.map (·.1) = Markup.rootStops job.settings nodes ∧ SoundAt job base met ∧
      ∀ on, ∃ c, ((source (job.optimizing on)).exec { context := ctx }).1 = .ok c ∧
        Encounter.Added (met.map (·.2)) on { diagnostics := ms } c := by
  intro nodes base
  obtain ⟨ms, htells⟩ := tells_front job
  -- The steps in front of the walk are the same in all runs, so all reach the walk in the same state.
  let start : Progress := { ((front job).exec { context := {} }).2 with context := base }
  have hstart : start.result = { diagnostics := ms } := by
    obtain ⟨q, hq, hresult⟩ := htells { context := {} }
    show ((front job).exec { context := {} }).2.result = _
    rw [hq]
    exact hresult
  have hrun (on : Bool) : (source (job.optimizing on)).exec { context := ctx } =
      (back (job.optimizing on)).exec start := by
    rw [source_eq_front_back]
    exact exec_bind_of_ok (acts_front job { context := {} } ctx)
  rcases meets_follow job base (Markup.rootStops job.settings nodes)
    (named_at_stops hnamed hloops _) with ⟨error, hfails⟩ | ⟨met, hstops, hsound, hsucceeds⟩
  · refine .inl ⟨error, fun on => ?_⟩
    rw [hrun]
    exact back_of_error
      ((congrArg Prod.fst (exec_roots_optimizing job on nodes start)).trans (hfails on start))
  · refine .inr ⟨met, ms, hstops, hsound, fun on => ?_⟩
    obtain ⟨q, hq, hadded⟩ := hsucceeds on start
    rw [hstart] at hadded
    rw [hrun, back_of_ok ((exec_roots_optimizing job on nodes start).trans hq)]
    exact ⟨_, rfl, hadded.expressions, hadded.passThroughs, hadded.diagnostics⟩

end Compile

/-! ## With and without -/

/-- Let all members of the component, variables in scope and loop variables of the template have names.
Then a compile that passes simple bindings through and one that does not fail with the same error, or
both succeed with the same diagnostics. At each stop of the walk they meet the same. The one enters all
expressions that are met; the other leaves out those of the bindings that it passes through, each of
which has one. Only in this, and in the names of the expressions, do the entries differ. -/
theorem optimization_leaves_out_entries {settings : Settings} {url template : String} {ctx : Context}
    (hnamed : ctx.Named)
    (hloops : ∀ e ∈ Markup.elementsOf (Markup.Tree.ofSource template.toList).nodes,
      ∀ a ∈ e.1.loop?, ∀ v ∈ ctx.loopScope a, IsName v.name) :
    let run (on : Bool) := (compileTemplate (settings.optimizing on) url template ctx).answer
    (∃ error, run true = .error error ∧ run false = .error error) ∨
    ∃ (on off : Compiled) (met : List (Stop × Encounter)),
      run true = .ok on ∧ run false = .ok off ∧ on.diagnostics = off.diagnostics ∧
      met.map (·.1) = Markup.rootStops settings (Markup.Tree.ofSource template.toList).nodes ∧
      off.expressions.map (·.unnamed) = met.filterMap (·.2.expression?) ∧
      off.passThroughs = [] ∧
      on.expressions.map (·.unnamed) =
        (met.filter (·.2.passed?.isNone)).filterMap (·.2.expression?) ∧
      on.passThroughs = met.filterMap (·.2.passed?) ∧
      Compile.SoundAt ⟨settings, ⟨url, template.toList⟩⟩
        (ctx.prepared settings (importsOf settings template)) met := by
  intro run
  rcases Compile.meets_source ⟨settings, ⟨url, template.toList⟩⟩ hnamed hloops with
    ⟨error, hfails⟩ | ⟨met, ms, hstops, hsound, hsucceeds⟩
  · exact .inl ⟨error, hfails true, hfails false⟩
  · -- Both runs add what is met at the stops to the same diagnostics of the markup.
    obtain ⟨on, hon, hadded⟩ := hsucceeds true
    obtain ⟨off, hoff, hadded'⟩ := hsucceeds false
    refine .inr ⟨on, off, met, hon, hoff, hadded.diagnostics.trans hadded'.diagnostics.symm, hstops,
      ?_, ?_, ?_, ?_, hsound⟩
    · rw [hadded'.expressions, List.filterMap_map]
      rfl
    · rw [hadded'.passThroughs]
      simp [Encounter.kept?]
    · rw [hadded.expressions, List.filterMap_map, List.filterMap_filter]
      refine List.filterMap_congr fun x _ => ?_
      cases hpassed : x.2.passed? <;> simp [Encounter.entered?, hpassed]
    · rw [hadded.passThroughs, List.filterMap_map]
      rfl

/-- A loop with a property, a method call and a sum: the first two pass through. -/
theorem optimization_of_two_bindings :
    let ctx : Context := {
      component := { own := { properties := .ofList [("title", .int)], methods := ["go"] } } }
    let template := "<li v-for=\"int i in 3\" :a=\"title\" :b=\"i + 1\" @click=\"go()\"></li>"
    let run (on : Bool) := (compileTemplate (Settings.optimizing {} on) "a.html" template ctx).answer
    ∃ (on off : Compiled) (met : List (Stop × Encounter)),
      run true = .ok on ∧ run false = .ok off ∧ on.diagnostics = off.diagnostics ∧
      off.expressions.map (·.unnamed) = met.filterMap (·.2.expression?) ∧
      on.expressions.map (·.unnamed) =
        (met.filter (·.2.passed?.isNone)).filterMap (·.2.expression?) ∧
      met.filterMap (·.2.passed?) = [⟨"title", .attributeBinding⟩, ⟨"go()", .event⟩] := by
  intro ctx template run
  have hpassed : (run true).toOption.map (·.passThroughs) =
      some [⟨"title", .attributeBinding⟩, ⟨"go()", .event⟩] := by
    decide +kernel
  obtain ⟨c, hc, hkept⟩ := Option.map_eq_some_iff.1 hpassed
  have hrun := eq_ok_of_toOption hc
  rcases @optimization_leaves_out_entries {} "a.html" template ctx
      ⟨by decide +kernel, by decide +kernel, by decide +kernel⟩ (by decide +kernel) with
    ⟨error, hon, -⟩ | ⟨on, off, met, hon, hoff, hdiagnostics, -, hoffs, -, hons, hkepts, -⟩
  · rw [show run true = _ from hon] at hrun
    cases hrun
  · obtain rfl : on = c := Except.ok.inj (hon.symm.trans hrun)
    exact ⟨on, off, met, hon, hoff, hdiagnostics, hoffs, hons, hkepts.symm.trans hkept⟩

end Stencil
