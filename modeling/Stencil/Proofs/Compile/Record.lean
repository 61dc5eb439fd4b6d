import Stencil.Proofs.Compile.Afterwards
import Stencil.Proofs.Source.Diagnostic

/-!
# What every stop leaves in the result

A stop of the walk leaves at most one expression in the result, and diagnostics at its own span. What
a successful compile has are the records of its stops, one for each stop and in their order, behind
what is said of the markup (`exec_source_records`).

An interpolation always leaves something (`Record.Made.settled`): its text is never passed through,
since it has to be turned into a text, and when it is empty that is reported. So it leaves either one
expression and nothing else, or no expression and at least one diagnostic.

The steps are taken by what they leave between two points of progress. `Tells` is for those that do no
more than report, with the diagnostics known; `Leaves` is for all others, with the diagnostics known
up to the span that they are at. `leaves_site` is the one about a site; from there it goes through the
tasks (`leaves_taskStep`) and, by induction on the stops, through the walk (`exec_follow_records`).

**What it does not establish.** Only successful compiles have a record for each stop: one that fails
has none for the stop that it fails at, and for those behind it.
-/

namespace Stencil

open Markup (Attribute Element Node)

namespace Compile

variable {α : Type} {job : Job} {span : Span} {p q r : Progress}

/-- Between two points of progress the result got at most one expression, and diagnostics that were
reported at the span. -/
structure Leaves (job : Job) (span : Span) (found? : Option TemplateExpression)
    (ds : List Diagnostic) (p q : Progress) : Prop where
  expressions : q.result.expressions = p.result.expressions ++ found?.toList
  diagnostics : q.result.diagnostics = p.result.diagnostics ++ ds
  pointing : ∀ d ∈ ds, d.PointsAt job.file span

/-- A step that changes neither the expressions nor the diagnostics leaves nothing. -/
theorem Leaves.nothing (hexpressions : q.result.expressions = p.result.expressions)
    (hdiagnostics : q.result.diagnostics = p.result.diagnostics) : Leaves job span none [] p q :=
  ⟨by simp [hexpressions], by simp [hdiagnostics], nofun⟩

/-- What is left counts from any progress with the same expressions and diagnostics. -/
theorem Leaves.start {found? : Option TemplateExpression} {ds : List Diagnostic}
    (h : Leaves job span found? ds q r) (hexpressions : q.result.expressions = p.result.expressions)
    (hdiagnostics : q.result.diagnostics = p.result.diagnostics) : Leaves job span found? ds p r :=
  ⟨by rw [h.expressions, hexpressions], by rw [h.diagnostics, hdiagnostics], h.pointing⟩

/-! ## Steps that only report -/

/-- The step does not fail, and all that it changes in the result is that it adds these diagnostics. -/
def Tells (ds : List Diagnostic) (m : Compile Unit) : Prop :=
  ∀ p, ∃ q, m.exec p = (.ok (), q) ∧
    q.result = { p.result with diagnostics := p.result.diagnostics ++ ds }

/-- Two steps that only report, one after the other. -/
theorem Tells.bind {ds es : List Diagnostic} {m n : Compile Unit} (hm : Tells ds m)
    (hn : Tells es n) : Tells (ds ++ es) (m >>= fun _ => n) := by
  intro p
  obtain ⟨q, hq, hfirst⟩ := hm p
  obtain ⟨r, hr, hsecond⟩ := hn q
  refine ⟨r, by rw [exec_bind_of_ok hq, hr], ?_⟩
  rw [hsecond, hfirst, List.append_assoc]

/-- What changes the progress in a way that no result shows. -/
theorem tells_nothing {m : Compile Unit}
    (h : ∀ p, ∃ q, m.exec p = (.ok (), q) ∧ q.result = p.result) : Tells [] m := by
  intro p
  obtain ⟨q, hq, hresult⟩ := h p
  exact ⟨q, hq, by rw [hresult, List.append_nil]⟩

theorem tells_pure : Tells [] (pure ()) := tells_nothing fun p => ⟨p, rfl, rfl⟩

/-- A report is one diagnostic, at its span. -/
theorem tells_report (job : Job) (message text : String) (span : Span) :
    Tells [⟨message, some text, some (SourceRange.ofSpan job.file span)⟩]
      (report job message text span) := fun _ => ⟨_, rfl, rfl⟩

/-- Every problem is reported. -/
theorem tells_problems (job : Job) (message : α → String) (text : String) (span : Span)
    (problems : List α) :
    Tells
      (problems.map fun problem => ⟨message problem, some text, some (SourceRange.ofSpan job.file span)⟩)
      (forIn problems PUnit.unit fun problem _ => do
        report job (message problem) text span
        pure (ForInStep.yield PUnit.unit)) := by
  induction problems with
  | nil => exact tells_pure
  | cons problem problems ih =>
    rw [List.forIn_cons, bind_assoc]
    simp only [pure_bind]
    exact (tells_report job (message problem) text span).bind ih

/-- The step does not fail, leaves no expression, and leaves these diagnostics. -/
def Reports (job : Job) (span : Span) (ds : List Diagnostic) (m : Compile Unit) : Prop :=
  ∀ p, ∃ q, m.exec p = (.ok (), q) ∧ Leaves job span none ds p q

/-- What is told at a span is reported there. -/
theorem Tells.reports {ds : List Diagnostic} {m : Compile Unit} (h : Tells ds m)
    (hpointing : ∀ d ∈ ds, d.PointsAt job.file span) : Reports job span ds m := by
  intro p
  obtain ⟨q, hq, hresult⟩ := h p
  exact ⟨q, hq, by simp [hresult], by rw [hresult], hpointing⟩

/-- A report at a span is at that span. -/
theorem reports_report (job : Job) (span : Span) (message text : String) : Reports job span
    [⟨message, some text, some (SourceRange.ofSpan job.file span)⟩] (report job message text span) :=
  (tells_report job message text span).reports (List.forall_mem_singleton.2 ⟨none, rfl⟩)

/-- Every problem is reported at the span. -/
theorem reports_problems (message : α → String) (text : String) (problems : List α) :
    Reports job span
      (problems.map fun problem => ⟨message problem, some text, some (SourceRange.ofSpan job.file span)⟩)
      (forIn problems PUnit.unit fun problem _ => do
        report job (message problem) text span
        pure (ForInStep.yield PUnit.unit)) := by
  refine (tells_problems job message text span problems).reports fun d hd => ?_
  obtain ⟨problem, -, rfl⟩ := List.mem_map.1 hd
  exact ⟨none, rfl⟩

/-! ## Sites -/

/-- What compiling a site leaves, of which the answer is `answer`. Only an empty text of which nothing
is said, and a text that is passed through, leave nothing. -/
def SiteLeaves (job : Job) (s : BindingSite) (written : String) (p : Progress)
    (run : Except CompileError String × Progress) : Prop :=
  ∃ found? ds, Leaves job s.span found? ds p run.2 ∧
    (∀ entry, found? = some entry → entry.kind = s.kind ∧ ds = []) ∧
    (found? = none → ds = [] → ∀ text, run.1 = .ok text → s.emptyMessage? = none ∨
      p.context.passesThrough job.settings s (Text.trimString written) = true)

/-- A site at which something is reported leaves that. -/
theorem Reports.siteLeaves {s : BindingSite} {written text : String} {ds : List Diagnostic}
    {m : Compile Unit} (h : Reports job s.span ds m) (hds : ds ≠ []) (p : Progress) :
    SiteLeaves job s written p ((m >>= fun _ => pure text).exec p) := by
  obtain ⟨q, hq, hleaves⟩ := h p
  rw [exec_bind_of_ok hq]
  exact ⟨none, ds, hleaves, nofun, fun _ hnil => absurd hnil hds⟩

/-- What compiling a tree leaves: its expression, or its problems. -/
theorem leaves_expr (job : Job) (s : BindingSite) (written : String) (tree : Expr) (p : Progress) :
    SiteLeaves job s written p ((expr job s (Text.trimString written) tree).exec p) := by
  unfold expr
  rw [exec_bind_of_ok (exec_context p)]
  by_cases hproblems :
      (p.context.resolve job.settings.eventParameter s.prop?.isNone tree).problems = []
  · rw [if_pos (by rw [hproblems]; rfl), exec_bind_of_ok (exec_get p),
      exec_bind_of_ok (exec_modifyResult ..), exec_bind_of_ok (exec_say ..)]
    refine ⟨some _, [], ⟨rfl, (List.append_nil _).symm, nofun⟩, ?_, nofun⟩
    rintro _ ⟨⟩
    exact ⟨rfl, rfl⟩
  · rw [if_neg (by rwa [List.isEmpty_iff])]
    exact (reports_problems _ _ _).siteLeaves (by simpa using hproblems) p

/-- What compiling a text leaves. A text that cannot be read is reported. -/
theorem leaves_exprText (job : Job) (s : BindingSite) (written : String) (p : Progress) :
    SiteLeaves job s written p ((exprText job s (Text.trimString written)).exec p) := by
  unfold exprText
  split
  · exact leaves_expr job s written _ p
  · rw [exec_bind_of_ok (exec_say ..), exec_throw]
    exact ⟨none, [], .nothing rfl rfl, nofun, fun _ _ text => nofun⟩

/-- What compiling a site leaves. -/
theorem leaves_site (job : Job) (s : BindingSite) (written : String) (p : Progress) :
    SiteLeaves job s written p ((site job s written).exec p) := by
  unfold site
  extract_lets text finish
  have hreport (message context : String) {rest : Unit → Compile String}
      (hrest : ∃ answer, rest = fun _ => pure answer) :
      SiteLeaves job s written p ((report job message context s.span >>= rest).exec p) := by
    obtain ⟨answer, rfl⟩ := hrest
    exact (reports_report job s.span message context).siteLeaves (List.cons_ne_nil _ _) p
  split
  · cases hmessage : s.emptyMessage? with
    | some message => exact hreport message _ ⟨_, rfl⟩
    | none => exact ⟨none, [], .nothing rfl rfl, nofun, fun _ _ _ _ => .inl hmessage⟩
  · exact hreport _ _ ⟨_, rfl⟩
  · exact hreport _ _ ⟨_, rfl⟩
  · rw [exec_bind_of_ok (exec_context p)]
    split
    · next hpasses => exact ⟨none, [], .nothing rfl rfl, nofun, fun _ _ _ _ => .inr hpasses⟩
    · exact leaves_exprText job s written p

/-! ## Tasks -/

/-- What changes the progress in a way that no result shows may follow. -/
theorem Leaves.bind {β : Type} {found? : Option TemplateExpression} {ds : List Diagnostic}
    {m : Compile α} {f : α → Compile β} (h : Leaves job span found? ds p (m.exec p).2)
    (hf : ∀ a q, ((f a).exec q).2.result = q.result) :
    Leaves job span found? ds p ((m >>= f).exec p).2 := by
  rw [exec_bind]
  rcases hm : m.exec p with ⟨answer, q⟩
  rw [hm] at h
  cases answer with
  | error error => exact h
  | ok a =>
    have hresult := hf a q
    exact ⟨by rw [hresult, h.expressions], by rw [hresult, h.diagnostics], h.pointing⟩

/-- Giving an attribute its new value does not change the result. -/
theorem result_setValue (a : Attribute) (text : String) (p : Progress) :
    ((setValue a text).exec p).2.result = p.result := by
  unfold setValue
  split
  · split <;> rfl
  · rfl

/-- Where the problems of an attribute are reported: those of an expression at the value, those of a
plain attribute at the whole of it. -/
def reportedSpan (kind : AttributeKind) (a : Attribute) : Span :=
  if kind = .plain then a.span else valueSpan a

/-- What compiling the value of an attribute leaves. -/
theorem leaves_value (job : Job) (kind : AttributeKind) (prop : Option DeclaredProp) (a : Attribute)
    (p : Progress) : ∃ found? ds,
      Leaves job (reportedSpan kind a) found? ds p ((value job kind prop a).exec p).2 := by
  unfold value reportedSpan
  by_cases hkind : kind = .plain
  · rw [if_pos hkind, if_pos hkind]
    have hnothing : ∃ found? ds, Leaves job a.span found? ds p p := ⟨none, [], .nothing rfl rfl⟩
    cases prop with
    | none => exact hnothing
    | some prop =>
      simp only
      split
      · obtain ⟨q, hq, hleaves⟩ := reports_report job a.span
          (plainPropMessage prop) (job.sourceText a.span) p
        rw [hq]
        exact ⟨none, _, hleaves⟩
      · exact hnothing
  · rw [if_neg hkind, if_neg hkind]
    obtain ⟨found?, ds, hleaves, -⟩ :=
      leaves_site job ⟨some kind, prop, kind.expectedType prop, valueSpan a⟩ a.value p
    exact ⟨found?, ds, hleaves.bind fun text q => result_setValue a text q⟩

/-- What compiling an iterable leaves. -/
theorem leaves_iterable (a : Attribute) (definition : LoopDefinition) (p : Progress) :
    ∃ found? ds, Leaves job (valueSpan a) found? ds p ((iterable job a definition).exec p).2 := by
  obtain ⟨q, hq, hexpressions, hdiagnostics⟩ : ∃ q,
      (say .debug s!"Entered loop scope with {definition.head}").exec p = (.ok (), q) ∧
      q.result.expressions = p.result.expressions ∧
      q.result.diagnostics = p.result.diagnostics := ⟨_, exec_say .., rfl, rfl⟩
  obtain ⟨found?, ds, hleaves, -⟩ := leaves_site job
    ⟨some .loop, none, definition.iterableType, valueSpan a⟩ definition.iterable q
  have hset : Leaves job (valueSpan a) found? ds q ((site job
      ⟨some .loop, none, definition.iterableType, valueSpan a⟩ definition.iterable >>= fun text =>
        setValue a (definition.render text)).exec q).2 :=
    hleaves.bind fun text r => result_setValue a _ r
  unfold iterable
  rw [exec_bind_of_ok hq]
  exact ⟨found?, ds, hset.start hexpressions hdiagnostics⟩

/-- One expression for an interpolation and nothing else, or at least one diagnostic instead. -/
def Settled (found? : Option TemplateExpression) (ds : List Diagnostic) : Prop :=
  (∃ entry, found? = some entry ∧ entry.kind = .interpolation ∧ ds = []) ∨ found? = none ∧ ds ≠ []

/-- An interpolation that does not end the compile is settled. -/
theorem leaves_marker (job : Job) (offset : Nat) (m : Markup.Marker) (p : Progress) : ∃ found? ds,
    Leaves job (m.span offset) found? ds p ((marker job offset m).exec p).2 ∧
      (∀ u, ((marker job offset m).exec p).1 = .ok u → Settled found? ds) := by
  let s : BindingSite := ⟨none, none, .string, m.span offset⟩
  obtain ⟨found?, ds, hleaves, hfound, hsilent⟩ := leaves_site job s (String.ofList m.inside) p
  refine ⟨found?, ds, hleaves.bind fun text q => ?_, fun u hu => ?_⟩
  · split <;> rfl
  · cases hentry : found? with
    | some entry =>
      obtain ⟨hkind, hnil⟩ := hfound entry hentry
      exact .inl ⟨entry, rfl, hkind, hnil⟩
    | none =>
      refine .inr ⟨rfl, fun hnil => ?_⟩
      rcases hsite : (site job s (String.ofList m.inside)).exec p with ⟨answer, q⟩
      rw [hsite] at hsilent
      cases answer with
      | error error =>
        have hrun : (marker job offset m).exec p = _ := exec_bind_of_error hsite
        rw [hrun] at hu
        cases hu
      | ok text =>
        -- an interpolation is never empty without a word, nor passed through
        rcases hsilent hentry hnil text rfl with hmessage | hpasses
        · cases hmessage
        · have hstring : TypeRef.string.isString = true := rfl
          simp [Context.passesThrough, s, hstring] at hpasses

end Compile

/-- Where the problems of a task are reported. -/
def Task.span : Task → Span
  | .site (.loop _ a) => Compile.valueSpan a
  | .site (.value _ a) => Compile.reportedSpan (AttributeKind.ofName a.name) a
  | .site (.marker offset m) => m.span offset
  | .plain _ a => Compile.reportedSpan .plain a
  | .required e => e.startSpan

/-- The interpolation that the task is to compile. -/
def Task.marker? : Task → Option (Nat × Markup.Marker)
  | .site (.marker offset m) => some (offset, m)
  | .site (.loop ..) | .site (.value ..) | .plain .. | .required _ => none

namespace Compile

variable {job : Job}

/-- Doing a task. -/
theorem leaves_taskStep (job : Job) (env : Context) (task : Task) (p : Progress) : ∃ found? ds,
    Leaves job task.span found? ds p ((taskStep job env task).exec p).2 ∧
      (task.marker?.isSome = true → ∀ u, ((taskStep job env task).exec p).1 = .ok u →
        Settled found? ds) := by
  cases task with
  | site place =>
    cases place with
    | loop e a =>
      rw [taskStep, placeStep]
      split
      · exact ⟨none, [], .nothing rfl rfl, by rintro ⟨⟩⟩
      · next definition _ =>
        obtain ⟨found?, ds, hleaves⟩ := leaves_iterable a definition p
        exact ⟨found?, ds, hleaves, by rintro ⟨⟩⟩
    | value e a =>
      obtain ⟨found?, ds, hleaves⟩ := leaves_value job (AttributeKind.ofName a.name)
        (passedProp? env (childOf? env e) a) a p
      exact ⟨found?, ds, hleaves, by rintro ⟨⟩⟩
    | marker offset m =>
      obtain ⟨found?, ds, hleaves, hsettled⟩ := leaves_marker job offset m p
      exact ⟨found?, ds, hleaves, fun _ => hsettled⟩
  | plain e a =>
    obtain ⟨found?, ds, hleaves⟩ := leaves_value job .plain
      (passedProp? env (childOf? env e) a) a p
    exact ⟨found?, ds, hleaves, by rintro ⟨⟩⟩
  | required e =>
    rw [taskStep]
    split
    · unfold checkRequiredProps
      extract_lets missing
      split
      · obtain ⟨q, hq, hleaves⟩ := reports_report job e.startSpan
          (missingPropsMessage _ missing) (job.sourceText e.startSpan) p
        rw [hq]
        exact ⟨none, _, hleaves, by rintro ⟨⟩⟩
      · exact ⟨none, [], .nothing rfl rfl, by rintro ⟨⟩⟩
    · exact ⟨none, [], .nothing rfl rfl, by rintro ⟨⟩⟩

end Compile

/-! ## Records -/

/-- What was left at a stop. -/
structure Record where
  stop : Stop
  expression? : Option TemplateExpression
  diagnostics : List Diagnostic

/-- The record tells what doing the task of the stop leaves, in the environment of the stop. -/
def Record.Made (job : Job) (base : Context) (r : Record) : Prop :=
  ∃ p q, p.context = base.within r.stop.loops ∧
    (Compile.taskStep job p.context r.stop.task).exec p = (.ok (), q) ∧
    Compile.Leaves job r.stop.task.span r.expression? r.diagnostics p q

/-- What is left at an interpolation. -/
theorem Record.Made.settled {job : Job} {base : Context} {r : Record} (h : r.Made job base)
    (hmarker : r.stop.task.marker?.isSome = true) :
    Compile.Settled r.expression? r.diagnostics := by
  obtain ⟨p, q, -, hexec, hleaves⟩ := h
  obtain ⟨found?, ds, hleaves', hsettled⟩ :=
    Compile.leaves_taskStep job p.context r.stop.task p
  rw [hexec] at hleaves' hsettled
  have hfound : r.expression?.toList = found?.toList :=
    List.append_cancel_left (hleaves.expressions.symm.trans hleaves'.expressions)
  have hds : r.diagnostics = ds :=
    List.append_cancel_left (hleaves.diagnostics.symm.trans hleaves'.diagnostics)
  have heq : r.expression? = found? := by
    cases hr : r.expression? <;> cases hf : found? <;> simp_all
  rw [heq, hds]
  exact hsettled hmarker () rfl

namespace Compile

variable {job : Job}

/-- Going from stop to stop leaves one record for each of them. -/
theorem exec_follow_records (base : Context) (stops : List Stop) {p q : Progress}
    (h : (follow job base stops).exec p = (.ok (), q)) : ∃ rs : List Record,
      rs.map (·.stop) = stops ∧ (∀ r ∈ rs, r.Made job base) ∧
      q.result.expressions = p.result.expressions ++ rs.filterMap (·.expression?) ∧
      q.result.diagnostics = p.result.diagnostics ++ rs.flatMap (·.diagnostics) := by
  -- By induction on the stops. A stop that succeeds leaves one record, in front of those of the stops
  -- behind it.
  induction stops generalizing p with
  | nil =>
    obtain ⟨-, rfl⟩ := Prod.mk.inj h
    exact ⟨[], rfl, List.forall_mem_nil _, (List.append_nil _).symm, (List.append_nil _).symm⟩
  | cons stop stops ih =>
    let start : Progress := { p with context := base.within stop.loops }
    obtain ⟨found?, ds, hleaves, -⟩ := leaves_taskStep job start.context stop.task start
    rw [follow_cons, exec_bind, exec_inEnvironment] at h
    rcases hstep : (taskStep job start.context stop.task).exec start with ⟨answer, r⟩
    change (taskStep job (base.within stop.loops) stop.task).exec start = _ at hstep
    rw [hstep] at h
    rw [hstep] at hleaves
    cases answer with
    | error error => cases h
    | ok u =>
      obtain ⟨rs, hstops, hmade, hexpressions, hdiagnostics⟩ := ih h
      refine ⟨⟨stop, found?, ds⟩ :: rs, by rw [List.map_cons, hstops],
        List.forall_mem_cons.2 ⟨⟨start, r, rfl, hstep, hleaves⟩, hmade⟩, ?_, ?_⟩
      · rw [hexpressions, hleaves.expressions, List.filterMap_cons, List.append_assoc]
        cases found? <;> rfl
      · rw [hdiagnostics, hleaves.diagnostics, List.flatMap_cons, List.append_assoc]

/-! ## The steps around the walk -/

/-- What is said of the markup. -/
theorem tells_reportMarkups (job : Job) (errors : List Markup.MarkupError) : ∃ ms,
    Tells ms (errors.forM (reportMarkup job)) ∧
      ∀ d ∈ ms, ∃ error ∈ errors, d.PointsAt job.file error.span := by
  induction errors with
  | nil => exact ⟨[], tells_pure, nofun⟩
  | cons error errors ih =>
    obtain ⟨ms, hrest, hpointing⟩ := ih
    have hbehind : ∀ d ∈ ms, ∃ e ∈ error :: errors, d.PointsAt job.file e.span := by
      intro d hd
      obtain ⟨e, he, hpoints⟩ := hpointing d hd
      exact ⟨e, List.mem_cons_of_mem error he, hpoints⟩
    obtain ⟨ds, hfirst, hpoints⟩ : ∃ ds, Tells ds (reportMarkup job error) ∧
        ∀ d ∈ ds, d.PointsAt job.file error.span := by
      unfold reportMarkup
      dsimp only
      split
      · exact ⟨[], tells_nothing fun _ => ⟨_, rfl, rfl⟩, nofun⟩
      · exact ⟨[_], fun _ => ⟨_, rfl, rfl⟩, List.forall_mem_singleton.2 ⟨_, rfl⟩⟩
    exact ⟨ds ++ ms, hfirst.bind hrest, List.forall_mem_append.2
      ⟨fun d hd => ⟨error, List.mem_cons_self, hpoints d hd⟩, hbehind⟩⟩

/-- Nothing is said of import elements. -/
theorem tells_imports (es : List Element) : Tells [] (es.forM processImport) := by
  induction es with
  | nil => exact tells_pure
  | cons e es ih =>
    have hfirst : Tells [] (processImport e) := by
      refine tells_nothing fun p => ?_
      unfold processImport
      cases e.attribute? "class" <;> cases e.attribute? "static" <;> exact ⟨_, rfl, rfl⟩
    exact hfirst.bind ih

/-- A successful compile, taken apart: what is said of the markup, the import elements, and the walk. -/
theorem exec_source_walk (job : Job) {ctx : Context} {c : Compiled}
    (h : ((source job).exec { context := ctx }).1 = .ok c) : ∃ q p r : Progress,
      ((Markup.Tree.ofSource job.file.content).errors.forM (reportMarkup job)).exec
        { context := job.settings.implicitImports.foldl Context.addImplicitImport ctx } = (.ok (), q) ∧
      ((importElements job.settings (Markup.Tree.ofSource job.file.content).nodes).forM
        processImport).exec q = (.ok (), p) ∧
      (follow job (ctx.prepared job.settings
          (importElements job.settings (Markup.Tree.ofSource job.file.content).nodes))
        (Markup.rootStops job.settings (Markup.Tree.ofSource job.file.content).nodes)).exec p =
          (.ok (), r) ∧
      c.expressions = r.result.expressions ∧ c.diagnostics = r.result.diagnostics := by
  rw [exec_source_eq_byStops] at h
  unfold sourceByStops sourceBy at h
  rw [exec_bind_of_ok (exec_modifyContext _ _)] at h
  obtain ⟨ms, htells, -⟩ := tells_reportMarkups job (Markup.Tree.ofSource job.file.content).errors
  obtain ⟨q, hq, -⟩ :=
    htells { context := job.settings.implicitImports.foldl Context.addImplicitImport ctx }
  obtain ⟨p, hp, -⟩ := tells_imports
    (importElements job.settings (Markup.Tree.ofSource job.file.content).nodes) q
  rw [exec_bind_of_ok hq, exec_bind_of_ok hp, bind_assoc, exec_bind_of_ok (exec_context p),
    prepared_of_front hq hp] at h
  -- The steps in front of the walk do not fail, so the walk has succeeded.
  rcases hwalk : (follow job (ctx.prepared job.settings
      (importElements job.settings (Markup.Tree.ofSource job.file.content).nodes))
      (Markup.rootStops job.settings (Markup.Tree.ofSource job.file.content).nodes)).exec p with
    ⟨answer, r⟩
  cases answer with
  | error error =>
    rw [exec_bind_of_error hwalk] at h
    cases h
  | ok u =>
    rw [exec_bind_of_ok hwalk, exec_bind_of_ok (exec_get r), exec_bind_of_ok (exec_say _ _ _)] at h
    obtain rfl := Except.ok.inj h
    exact ⟨q, p, r, hq, hp, hwalk, rfl, rfl⟩

/-- A successful compile has the records of its stops, behind what is said of the markup. -/
theorem exec_source_records (job : Job) {ctx : Context} {c : Compiled}
    (h : ((source job).exec { context := ctx }).1 = .ok c) :
    ∃ (ms : List Diagnostic) (rs : List Record),
      rs.map (·.stop) = Markup.rootStops job.settings
        (Markup.Tree.ofSource job.file.content).nodes ∧
      (∀ r ∈ rs, r.Made job (ctx.prepared job.settings
        (importElements job.settings (Markup.Tree.ofSource job.file.content).nodes))) ∧
      c.expressions = rs.filterMap (·.expression?) ∧
      c.diagnostics = ms ++ rs.flatMap (·.diagnostics) ∧
      ∀ d ∈ ms, ∃ error ∈ (Markup.Tree.ofSource job.file.content).errors,
        d.PointsAt job.file error.span := by
  obtain ⟨q, p, r, hq, hp, hwalk, hexpressions, hdiagnostics⟩ := exec_source_walk job h
  obtain ⟨ms, htells, hpointing⟩ :=
    tells_reportMarkups job (Markup.Tree.ofSource job.file.content).errors
  obtain ⟨q', hq', hresult⟩ :=
    htells { context := job.settings.implicitImports.foldl Context.addImplicitImport ctx }
  obtain ⟨p', hp', hresult'⟩ := tells_imports
    (importElements job.settings (Markup.Tree.ofSource job.file.content).nodes) q
  obtain rfl : q = q' := congrArg Prod.snd (hq.symm.trans hq')
  obtain rfl : p = p' := congrArg Prod.snd (hp.symm.trans hp')
  rw [hresult, List.append_nil] at hresult'
  obtain ⟨rs, hstops, hmade, hfound, hsaid⟩ := exec_follow_records _ _ hwalk
  refine ⟨ms, rs, hstops, hmade, ?_, ?_, hpointing⟩
  · exact (hexpressions.trans hfound).trans (by rw [hresult']; rfl)
  · exact (hdiagnostics.trans hsaid).trans (by rw [hresult']; rfl)

end Compile

end Stencil
