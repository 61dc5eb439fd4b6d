import Stencil.Compile.Element

/-!
# What a step of a compile does

`Compile.exec` runs a step: it gives its answer and the progress that it leaves. From then on a step
is known by what it does to the progress. The step that all others are there for is `Compile.site`;
what it does is said once, in `exec_site`: it touches neither the context nor the edits, adds at most
one expression to the result, namely the one that its text resolves to, and answers with the call of
that expression, or with its trimmed text when there is none.

The equations of `exec` are rewrite rules, one for each operation that steps are made of (`exec_bind`,
`exec_inScope` and those of the operations on the progress), so a step is run by rewriting. What
changes no more of the progress than the diagnostics, the passed-through bindings and the log is
`Silent`; such steps are most of what happens in front of an expression and behind it.

**What it does not establish.** `SiteRun` leaves open what is reported, what is passed through and
what a site fails with; the modules on the diagnostics and on the optimisation say that.
-/

namespace Stencil

namespace Compile

variable {α β : Type}

/-- The answer of a step and the progress that it leaves. -/
def exec (m : Compile α) (p : Progress) : Except CompileError α × Progress := m.run.run p

@[simp] theorem exec_pure (a : α) (p : Progress) : (pure a : Compile α).exec p = (.ok a, p) := rfl

/-- Failing changes nothing. -/
@[simp] theorem exec_throw (e : CompileError) (p : Progress) :
    (throw e : Compile α).exec p = (.error e, p) := rfl

/-- A step goes on with the answer of the one in front of it, unless that fails. -/
theorem exec_bind (m : Compile α) (f : α → Compile β) (p : Progress) :
    (m >>= f).exec p =
      match m.exec p with
      | (.ok a, q) => (f a).exec q
      | (.error e, q) => (.error e, q) := by
  show (ExceptT.bind m f).run.run p = _
  unfold ExceptT.bind exec
  rcases h : m.run.run p with ⟨answer, q⟩
  simp only [ExceptT.run, ExceptT.mk, StateT.run_bind] at h ⊢
  rw [h]
  cases answer <;> rfl

/-- A step goes on with an answer. -/
theorem exec_bind_of_ok {m : Compile α} {f : α → Compile β} {p q : Progress} {a : α}
    (h : m.exec p = (.ok a, q)) : (m >>= f).exec p = (f a).exec q := by
  rw [exec_bind, h]

/-- Behind a failure nothing is done. -/
theorem exec_bind_of_error {m : Compile α} {f : α → Compile β} {p q : Progress} {e : CompileError}
    (h : m.exec p = (.error e, q)) : (m >>= f).exec p = (.error e, q) := by
  rw [exec_bind, h]

@[simp] theorem exec_get (p : Progress) : (get : Compile Progress).exec p = (.ok p, p) := rfl

@[simp] theorem exec_context (p : Progress) : context.exec p = (.ok p.context, p) := rfl

@[simp] theorem exec_modifyContext (f : Context → Context) (p : Progress) :
    (modifyContext f).exec p = (.ok (), { p with context := f p.context }) := rfl

@[simp] theorem exec_say (level : LogLevel) (message : String) (p : Progress) :
    (say level message).exec p = (.ok (), { p with log := p.log ++ [⟨level, message⟩] }) := rfl

@[simp] theorem exec_edit (e : Edit) (p : Progress) :
    (edit e).exec p = (.ok (), { p with edits := p.edits ++ [e] }) := rfl

@[simp] theorem exec_modifyResult (f : Compiled → Compiled) (p : Progress) :
    (modifyResult f).exec p = (.ok (), { p with result := f p.result }) := rfl

/-- A scope is closed again whether the step in it fails or not. -/
theorem exec_inScope (m : Compile α) (p : Progress) :
    (inScope m).exec p =
      ((m.exec { p with context := p.context.push }).1,
        { (m.exec { p with context := p.context.push }).2 with
          context := (m.exec { p with context := p.context.push }).2.context.pop }) := rfl

/-! ## Steps that record nothing -/

/-- The step touches neither the context nor the edits nor the expressions, and does not fail. -/
def Silent (m : Compile Unit) : Prop :=
  ∀ p, ∃ q, m.exec p = (.ok (), q) ∧ q.context = p.context ∧ q.edits = p.edits ∧
    q.result.expressions = p.result.expressions

/-- Two steps that record nothing, one after the other. -/
theorem Silent.bind {m n : Compile Unit} (hm : Silent m) (hn : Silent n) :
    Silent (m >>= fun _ => n) := by
  intro p
  obtain ⟨q, hq, hcontext, hedits, hresult⟩ := hm p
  obtain ⟨r, hr, hcontext', hedits', hresult'⟩ := hn q
  exact ⟨r, by rw [exec_bind_of_ok hq, hr], hcontext'.trans hcontext, hedits'.trans hedits,
    hresult'.trans hresult⟩

theorem silent_pure : Silent (pure ()) := fun p => ⟨p, rfl, rfl, rfl, rfl⟩

theorem silent_say (level : LogLevel) (message : String) : Silent (say level message) :=
  fun _ => ⟨_, rfl, rfl, rfl, rfl⟩

/-- A binding that is passed through is in the result, but not among the expressions. -/
theorem silent_addPassThrough (passed : PassThrough) :
    Silent (modifyResult (·.addPassThrough passed)) := fun _ => ⟨_, rfl, rfl, rfl, rfl⟩

/-- A diagnostic is in the result, but not among the expressions. -/
theorem silent_reportDiagnostic (d : Diagnostic) : Silent (reportDiagnostic d) :=
  fun _ => ⟨_, rfl, rfl, rfl, rfl⟩

theorem silent_report (job : Job) (message text : String) (span : Span) :
    Silent (report job message text span) := silent_reportDiagnostic _

/-- A step that records nothing, for each member of a list. -/
theorem silent_for {γ : Type} {f : γ → Compile Unit} (hf : ∀ c, Silent (f c)) (cs : List γ) :
    Silent (forIn cs PUnit.unit fun c _ => do
      f c
      pure (ForInStep.yield PUnit.unit)) := by
  induction cs with
  | nil => exact silent_pure
  | cons c cs ih =>
    rw [List.forIn_cons, bind_assoc]
    simp only [pure_bind]
    exact (hf c).bind ih

/-! ## A site -/

/-- The expression that the text at a site comes to, after the progress `p`: its tree, resolved in
the context, has no problems, and the expression is the next one of the result. -/
def Entered (job : Job) (site : BindingSite) (written : String) (p : Progress)
    (entry : TemplateExpression) : Prop :=
  ∃ tree, Expr.parse (Text.trimString written) = .ok tree ∧
    let resolution := p.context.resolve job.settings.eventParameter site.prop?.isNone tree
    resolution.problems = [] ∧
      entry = p.result.nextExpression job.settings.expressionPrefix resolution.expression.print
        (resolution.castType.getD site.expectedType) site.prop?.isSome site.kind
        resolution.parameters

/-- What the site is to hold: the call of the expression that was added for it, or its text. -/
def shownText (written : String) (expression? : Option TemplateExpression) : String :=
  (expression?.map (·.call)).getD (Text.trimString written)

/-- What compiling a site does to the progress `p`, of which it leaves `q`. -/
structure SiteRun (job : Job) (site : BindingSite) (written : String)
    (expression? : Option TemplateExpression) (answer : Except CompileError String)
    (p q : Progress) : Prop where
  context : q.context = p.context
  edits : q.edits = p.edits
  expressions : q.result.expressions = p.result.expressions ++ expression?.toList
  entered : ∀ entry, expression? = some entry → Entered job site written p entry
  answered : ∀ text, answer = .ok text → text = shownText written expression?
  failed : ∀ error, answer = .error error → expression? = none

/-- A silent step followed by the text of the site as its answer. -/
theorem siteRun_silent {job : Job} {site : BindingSite} {written text : String} {m : Compile Unit}
    (hm : Silent m) (htext : text = Text.trimString written) (p : Progress) :
    SiteRun job site written none ((m >>= fun _ => pure text).exec p).1 p
      ((m >>= fun _ => pure text).exec p).2 := by
  obtain ⟨q, hq, hcontext, hedits, hresult⟩ := hm p
  rw [exec_bind_of_ok hq, exec_pure]
  refine ⟨hcontext, hedits, by simpa using hresult, by rintro _ ⟨⟩, ?_, by rintro _ ⟨⟩⟩
  rintro _ ⟨⟩
  exact htext

/-- What compiling a tree does: it is entered if it resolves without a problem, and otherwise stays as
written. -/
theorem exec_expr (job : Job) (site : BindingSite) (written : String) (tree : Expr) (p : Progress)
    (hparse : Expr.parse (Text.trimString written) = .ok tree) :
    ∃ expression?, SiteRun job site written expression?
      ((expr job site (Text.trimString written) tree).exec p).1 p
      ((expr job site (Text.trimString written) tree).exec p).2 := by
  unfold expr
  rw [exec_bind_of_ok (exec_context p)]
  by_cases hproblems :
      (p.context.resolve job.settings.eventParameter site.prop?.isNone tree).problems = []
  · rw [if_pos (by rw [hproblems]; rfl), exec_bind_of_ok (exec_get p),
      exec_bind_of_ok (exec_modifyResult ..), exec_bind_of_ok (exec_say ..)]
    refine ⟨some _, rfl, rfl, rfl, ?_, ?_, ?_⟩
    · rintro _ ⟨⟩
      exact ⟨tree, hparse, hproblems, rfl⟩
    · rintro _ ⟨⟩
      rfl
    · rintro _ ⟨⟩
  · rw [if_neg (by rwa [List.isEmpty_iff])]
    exact ⟨none, siteRun_silent (silent_for (fun problem => silent_report _ _ _ _) _) rfl p⟩

/-- What compiling a text does. A text that cannot be read fails. -/
theorem exec_exprText (job : Job) (site : BindingSite) (written : String) (p : Progress) :
    ∃ expression?, SiteRun job site written expression?
      ((exprText job site (Text.trimString written)).exec p).1 p
      ((exprText job site (Text.trimString written)).exec p).2 := by
  unfold exprText
  split
  · next tree hparse => exact exec_expr job site written tree p hparse
  · rw [exec_bind_of_ok (exec_say ..), exec_throw]
    exact ⟨none, rfl, rfl, by simp, by rintro _ ⟨⟩, by rintro _ ⟨⟩, fun _ _ => rfl⟩

/-- What compiling a site does. -/
theorem exec_site (job : Job) (s : BindingSite) (written : String) (p : Progress) :
    ∃ expression?, SiteRun job s written expression? ((site job s written).exec p).1 p
      ((site job s written).exec p).2 := by
  unfold site
  extract_lets text finish
  have hreport (message context : String) : ∃ expression?,
      SiteRun job s written expression? ((do report job message context s.span; return text).exec p).1 p
        ((do report job message context s.span; return text).exec p).2 :=
    ⟨none, siteRun_silent (silent_report _ _ _ _) rfl p⟩
  split
  · next hempty =>
    have hfinish : finish = fun _ => pure text :=
      funext fun _ => congrArg pure (String.toList_inj.1 hempty.symm)
    rw [hfinish]
    cases s.emptyMessage? with
    | some message => exact hreport message _
    | none => exact ⟨none, siteRun_silent silent_pure rfl p⟩
  · exact hreport _ _
  · exact hreport _ _
  · rw [exec_bind_of_ok (exec_context p)]
    split
    · have hsilent := (silent_say .debug s!"Passing \"{text}\" through unprocessed").bind
        (silent_addPassThrough ⟨text, s.kind⟩)
      have hrun : SiteRun job s written none _ p _ := siteRun_silent hsilent rfl p
      rw [bind_assoc] at hrun
      exact ⟨none, hrun⟩
    · exact exec_exprText job s written p

end Compile

end Stencil
