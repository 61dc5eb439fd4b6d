import Stencil.Proofs.Compile.KeptElement
import Stencil.Proofs.Compile.Record
import Stencil.Proofs.Context.PassedProp

/-!
# Missing props

A use of a child component should pass all props that are required. What it does not pass is reported
in one message, at its start tag.

**The law** (`compileTemplate_missingProps`): if the names of the component tell its props apart, what
a compile says about missing props at the start tag of a use of it is exactly one message with the
attribute names of the required props that no attribute of the use spells, in the order of their
declaration, or nothing when there is none.

Two things are needed for that. No other step of a compile says such a thing (`Spares`): it takes the
first character of a message to see that it is about something else. And the walk comes to each
element once, so what is said is the sum of what the elements lack (`saidMissing_follow`,
`missingProps_source`). What is passed can then be read off the attributes
(`name_mem_passedNames_iff`).

**What it does not establish.** A component with two props of which one is spelled like the other is
excluded (`ChildComponent.WellNamed`), and of the whole template only a compile that succeeds is
spoken of.
-/

namespace Stencil

open Markup (Attribute Element Node)

/-! ## What is said about missing props -/

/-- The diagnostic says that props are missing. -/
def Diagnostic.isMissingProps (d : Diagnostic) : Bool :=
  "Missing required property: ".toList.isPrefixOf d.message.toList

/-- It takes the first character of a message to see that it is about something else. -/
theorem Diagnostic.isMissingProps_eq_false {d : Diagnostic} {c : Char}
    (h : d.message.toList.head? = some c) (hc : c ≠ 'M') : d.isMissingProps = false := by
  rw [← Bool.not_eq_true, isMissingProps, List.isPrefixOf_iff_prefix]
  rintro ⟨rest, hrest⟩
  have hfirst : "Missing required property: ".toList.head? = some 'M' := by decide +kernel
  rw [← hrest, List.head?_append, hfirst] at h
  exact hc (Option.some.inj h).symm

namespace Compile

variable {α β : Type} {job : Job}

/-- What was said about missing props up to here. -/
def saidMissing (p : Progress) : List Diagnostic := p.result.diagnostics.filter (·.isMissingProps)

/-- The step says nothing about missing props, whether it fails or not. -/
def Spares (m : Compile α) : Prop := ∀ p, saidMissing (m.exec p).2 = saidMissing p

/-- Two steps that spare missing props, one after the other. -/
theorem Spares.bind {m : Compile α} {f : α → Compile β} (hm : Spares m) (hf : ∀ a, Spares (f a)) :
    Spares (m >>= f) := by
  intro p
  have hp := hm p
  rcases h : m.exec p with ⟨answer, q⟩
  rw [h] at hp
  cases answer with
  | error error => rw [exec_bind_of_error h, hp]
  | ok a => rw [exec_bind_of_ok h, hf a q, hp]

/-- A step that does not change the result says nothing. -/
theorem spares_of_result {m : Compile α} (h : ∀ p, (m.exec p).2.result = p.result) : Spares m := by
  intro p
  rw [saidMissing, h p, saidMissing]

theorem spares_pure (a : α) : Spares (pure a : Compile α) := fun _ => rfl

/-- Of what a step reports, the part about missing props is added to what was said of them. -/
theorem Tells.saidMissing {ds : List Diagnostic} {m : Compile Unit} (h : Tells ds m) (p : Progress) :
    ∃ q, m.exec p = (.ok (), q) ∧
      Compile.saidMissing q = Compile.saidMissing p ++ ds.filter (·.isMissingProps) := by
  obtain ⟨q, hq, hresult⟩ := h p
  refine ⟨q, hq, ?_⟩
  unfold Compile.saidMissing
  rw [hresult, List.filter_append]

/-- A step that reports other things says nothing about missing props. -/
theorem Tells.spares {ds : List Diagnostic} {m : Compile Unit} (h : Tells ds m)
    (hds : ∀ d ∈ ds, d.isMissingProps = false) : Spares m := by
  intro p
  obtain ⟨q, hq, hsaid⟩ := h.saidMissing p
  have hnone : ds.filter (·.isMissingProps) = [] :=
    List.filter_eq_nil_iff.2 fun d hd => by rw [hds d hd]; exact Bool.false_ne_true
  rw [hq, hsaid, hnone, List.append_nil]

/-- A step that spares missing props, for each member of a list. -/
theorem spares_forM {γ : Type} {f : γ → Compile Unit} (hf : ∀ c, Spares (f c)) (cs : List γ) :
    Spares (cs.forM f) := by
  induction cs with
  | nil => exact spares_pure ()
  | cons c cs ih => exact (hf c).bind fun _ => ih

/-! ## What else is said -/

set_option maxRecDepth 1000 in
/-- How a message about an empty text starts. -/
theorem head?_emptyMessage {s : BindingSite} {message : String} (h : s.emptyMessage? = some message) :
    message.toList.head? = some 'E' := by
  have hsame {text : String} (hfirst : text.toList.head? = some 'E') (h : some text = some message) :
      message.toList.head? = some 'E' := by
    rw [← Option.some.inj h, hfirst]
  unfold BindingSite.emptyMessage? at h
  split at h
  · exact hsame (Text.head?_ofList ⟨_, rfl⟩) h
  · exact hsame (Text.head?_ofList ⟨_, rfl⟩) h
  · exact hsame (Text.head?_ofList ⟨_, rfl⟩) h
  · split at h
    · exact hsame (Text.head?_ofList ⟨_, rfl⟩) h
    · cases h
  · exact hsame (Text.head?_ofList ⟨_, rfl⟩) h

set_option maxRecDepth 2000 in
/-- How the messages about literals start. -/
theorem head?_literalMessages : objectLiteralMessage.toList.head? = some 'O' ∧
    arrayLiteralMessage.toList.head? = some 'A' :=
  ⟨Text.head?_ofList ⟨_, rfl⟩, Text.head?_ofList ⟨_, rfl⟩⟩

/-- How the message about a problem of a resolution starts: not like the one about missing props. -/
theorem head?_problem (problem : ResolutionProblem) :
    ∃ c, problem.message.toList.head? = some c ∧ c ≠ 'M' := by
  cases problem with
  | unknownMethod name =>
    exact ⟨'C', Text.head?_append (Text.head?_append (Text.head?_ofList ⟨_, rfl⟩)), by decide⟩
  | unknownName name =>
    exact ⟨'C', Text.head?_append (Text.head?_append (Text.head?_ofList ⟨_, rfl⟩)), by decide⟩
  | uncastEvent name =>
    have hquote : ("\"" ++ name).toList.head? = some '"' := Text.head?_append (Text.head?_ofList ⟨_, rfl⟩)
    exact ⟨'"', Text.head?_append (Text.head?_append (Text.head?_append hquote)), by decide⟩

/-- How the message about a prop that is passed as a plain attribute starts. -/
theorem head?_plainPropMessage (prop : DeclaredProp) :
    (plainPropMessage prop).toList.head? = some 'P' :=
  Text.head?_append (Text.head?_append (Text.head?_ofList ⟨_, rfl⟩))

/-- How the message about a problem of the markup starts. -/
theorem head?_markupProblem (problem : Markup.Problem) :
    problem.message.toList.head? = some 'U' := by
  cases problem with
  | unterminatedComment => exact Text.head?_ofList ⟨_, rfl⟩
  | unterminatedTag name => exact Text.head?_append (Text.head?_append (Text.head?_ofList ⟨_, rfl⟩))
  | unterminatedValue name => exact Text.head?_append (Text.head?_append (Text.head?_ofList ⟨_, rfl⟩))
  | unexpectedEndTag name => exact Text.head?_append (Text.head?_append (Text.head?_ofList ⟨_, rfl⟩))

/-- A diagnostic whose message starts in another way is not about missing props. -/
theorem spares_reportDiagnostic {d : Diagnostic} {c : Char} (h : d.message.toList.head? = some c)
    (hc : c ≠ 'M') : Spares (reportDiagnostic d) := by
  have htells : Tells [d] (reportDiagnostic d) := fun _ => ⟨_, rfl, rfl⟩
  exact htells.spares (List.forall_mem_singleton.2 (Diagnostic.isMissingProps_eq_false h hc))

/-- A report whose message starts in another way is not about missing props. -/
theorem spares_report (job : Job) {message : String} (text : String) (span : Span) {c : Char}
    (h : message.toList.head? = some c) (hc : c ≠ 'M') : Spares (report job message text span) :=
  spares_reportDiagnostic h hc

theorem spares_say (level : LogLevel) (message : String) : Spares (say level message) := fun _ => rfl

/-- Compiling a tree says nothing about missing props. -/
theorem spares_expr (job : Job) (s : BindingSite) (text : String) (tree : Expr) :
    Spares (expr job s text tree) := by
  intro p
  unfold expr
  rw [exec_bind_of_ok (exec_context p)]
  dsimp only
  split
  · rfl
  · have htells := tells_problems job ResolutionProblem.message text s.span
      (p.context.resolve job.settings.eventParameter s.prop?.isNone tree).problems
    refine (htells.spares ?_).bind (fun _ => spares_pure text) p
    intro d hd
    obtain ⟨problem, -, rfl⟩ := List.mem_map.1 hd
    obtain ⟨c, hfirst, hc⟩ := head?_problem problem
    exact Diagnostic.isMissingProps_eq_false hfirst hc

/-- Compiling a site says nothing about missing props. -/
theorem spares_site (job : Job) (s : BindingSite) (written : String) :
    Spares (site job s written) := by
  intro p
  unfold site
  extract_lets text finish
  split
  · cases hmessage : s.emptyMessage? with
    | some message =>
      exact (spares_report job _ _ (head?_emptyMessage hmessage) (by decide)).bind
        (fun _ => spares_pure "") p
    | none => rfl
  · exact (spares_report job text s.span head?_literalMessages.1 (by decide)).bind
      (fun _ => spares_pure text) p
  · exact (spares_report job text s.span head?_literalMessages.2 (by decide)).bind
      (fun _ => spares_pure text) p
  · rw [exec_bind_of_ok (exec_context p)]
    split
    · rfl
    · unfold exprText
      split
      · exact spares_expr job s text _ p
      · rfl

theorem spares_setValue (a : Attribute) (text : String) : Spares (setValue a text) :=
  spares_of_result (result_setValue a text)

/-- Compiling the value of an attribute says nothing about missing props. -/
theorem spares_value (job : Job) (kind : AttributeKind) (prop : Option DeclaredProp) (a : Attribute) :
    Spares (value job kind prop a) := by
  unfold value
  split
  · cases prop with
    | none => exact spares_pure ()
    | some prop =>
      dsimp only
      split
      · exact spares_report job _ a.span (head?_plainPropMessage prop) (by decide)
      · exact spares_pure ()
  · exact (spares_site job _ a.value).bind fun text => spares_setValue a text

/-- Compiling an interpolation says nothing about missing props. -/
theorem spares_marker (job : Job) (offset : Nat) (m : Markup.Marker) :
    Spares (marker job offset m) := by
  refine (spares_site job _ _).bind fun text => ?_
  split
  · exact fun _ => rfl
  · exact spares_pure ()

/-- Compiling the expression at a place says nothing about missing props. -/
theorem spares_placeStep (job : Job) (env : Context) (place : Place) :
    Spares (placeStep job env place) := by
  cases place with
  | loop e a =>
    rw [placeStep]
    split
    · exact fun _ => rfl
    · exact (spares_say _ _).bind fun _ => (spares_site job _ _).bind fun text => spares_setValue a _
  | value e a => exact spares_value job _ _ a
  | marker offset m => exact spares_marker job offset m

/-- What is said of the markup is not about missing props. -/
theorem spares_reportMarkup (job : Job) (error : Markup.MarkupError) :
    Spares (reportMarkup job error) := by
  unfold reportMarkup
  extract_lets details range
  split
  · exact spares_say _ _
  · exact spares_reportDiagnostic (head?_markupProblem error.problem) (by decide)

/-- Compiling the attributes of an element says nothing about missing props. -/
theorem spares_attributes (job : Job) (child : Option ChildComponent) (as : List Attribute) :
    Spares (attributes job child as) := by
  induction as with
  | nil => exact spares_pure []
  | cons a as ih =>
    by_cases hskip : AttributeKind.ofName a.name = .loop ∨ AttributeKind.ofName a.name = .model
    · rw [Visits.attributes_cons_skip hskip]
      exact ih
    · rw [not_or] at hskip
      rw [Visits.attributes_cons hskip.1 hskip.2]
      refine Spares.bind (fun _ => rfl) fun env => ?_
      exact (spares_value job _ _ a).bind fun _ => ih.bind fun names => spares_pure _

/-- Compiling texts says nothing about missing props. -/
theorem spares_texts (job : Job) (texts : List (String × Span)) :
    Spares (texts.forM fun (value, span) => markers job value span) :=
  spares_forM (fun (_, span) => spares_forM (spares_marker job span.start) _) texts

/-- Of an import element nothing is said. -/
theorem spares_processImport (e : Element) : Spares (processImport e) := by
  apply spares_of_result
  intro p
  unfold processImport
  cases e.attribute? "class" <;> cases e.attribute? "static" <;> rfl

/-! ## What an element lacks -/

/-- What is said of a use of the component that lacks these props. -/
def lacking (job : Job) (child : ChildComponent) (e : Element) (missing : List DeclaredProp) :
    List Diagnostic :=
  if missing = [] then []
  else [{
    message := "Missing required property: " ++
      Text.joinWith "," (missing.map fun p => "\"" ++ p.attributeName ++ "\"") ++
      " on child component \"" ++ child.tagName ++ "\""
    context := some (job.sourceText e.startSpan)
    range := some (SourceRange.ofSpan job.file e.startSpan) }]

variable {child : ChildComponent} {e : Element} {missing : List DeclaredProp}

/-- What is said of a use that lacks props is about missing props, and at its start tag. -/
theorem isMissingProps_of_mem_lacking {d : Diagnostic} (h : d ∈ lacking job child e missing) :
    d.isMissingProps = true ∧ d.range = some (SourceRange.ofSpan job.file e.startSpan) := by
  unfold lacking at h
  split at h
  · cases h
  · obtain rfl := List.mem_singleton.1 h
    refine ⟨?_, rfl⟩
    rw [Diagnostic.isMissingProps, List.isPrefixOf_iff_prefix]
    simp only [String.toList_append, List.append_assoc]
    exact List.prefix_append _ _

/-- When the passed props are compared with the required ones, what is told is which are missing. -/
theorem tells_lacking (job : Job) (child : ChildComponent) (names : List String) (e : Element) :
    Tells (lacking job child e (child.requiredProps.filter fun p => !names.contains p.name))
      (checkRequiredProps job child names e) := by
  unfold checkRequiredProps lacking
  cases child.requiredProps.filter fun p => !names.contains p.name with
  | nil => exact tells_pure
  | cons p ps => exact tells_report job _ _ _

/-- All that is said when the passed props are compared with the required ones is that some are missing. -/
theorem exec_checkRequiredProps (job : Job) (child : ChildComponent) (names : List String) (e : Element)
    (p : Progress) : ∃ q, (checkRequiredProps job child names e).exec p = (.ok (), q) ∧
      saidMissing q = saidMissing p ++
        lacking job child e (child.requiredProps.filter fun p => !names.contains p.name) := by
  obtain ⟨q, hq, hsaid⟩ := (tells_lacking job child names e).saidMissing p
  refine ⟨q, hq, ?_⟩
  rw [hsaid, List.filter_eq_self.2 fun d hd => (isMissingProps_of_mem_lacking hd).1]

/-- What is said of an element: nothing if it is not a use of a component. -/
def lackingAt (job : Job) (env : Context) (e : Element) : List Diagnostic :=
  match childOf? env e with
  | some child => lacking job child e
      (child.requiredProps.filter fun p => !(passedNames env e e.attributes).contains p.name)
  | none => []

/-- What is said at a stop. -/
def lackingAtStop (job : Job) (base : Context) (s : Stop) : List Diagnostic :=
  match s.task with
  | .required e => lackingAt job (base.within s.loops) e
  | .site _ | .plain .. => []

/-- Doing a task says what its stop lacks. -/
theorem saidMissing_taskStep (job : Job) (base : Context) (s : Stop) (p : Progress) :
    saidMissing ((taskStep job (base.within s.loops) s.task).exec p).2 =
      saidMissing p ++ lackingAtStop job base s := by
  unfold lackingAtStop
  cases s.task with
  | site place => exact (spares_placeStep job _ place p).trans (List.append_nil _).symm
  | plain e a => exact (spares_value job _ _ a p).trans (List.append_nil _).symm
  | required e =>
    dsimp only
    rw [taskStep, lackingAt]
    cases childOf? (base.within s.loops) e with
    | none => exact (List.append_nil _).symm
    | some child =>
      obtain ⟨q, hq, hsaid⟩ := exec_checkRequiredProps job child
        (passedNames (base.within s.loops) e e.attributes) e p
      dsimp only
      rw [hq, hsaid]

/-- Going from stop to stop says what each element lacks. -/
theorem saidMissing_follow (base : Context) (stops : List Stop) {p q : Progress}
    (h : (follow job base stops).exec p = (.ok (), q)) :
    saidMissing q = saidMissing p ++ stops.flatMap (lackingAtStop job base) := by
  -- By induction on the stops: what is said at the first one comes before what is said behind it.
  induction stops generalizing p with
  | nil =>
    obtain ⟨-, rfl⟩ := Prod.mk.inj h
    exact (List.append_nil _).symm
  | cons stop stops ih =>
    have hstop := saidMissing_taskStep job base stop { p with context := base.within stop.loops }
    rw [follow_cons, exec_bind, exec_inEnvironment] at h
    rcases hstep : (taskStep job (base.within stop.loops) stop.task).exec
      { p with context := base.within stop.loops } with ⟨answer, r⟩
    rw [hstep] at h hstop
    cases answer with
    | error error => cases h
    | ok u =>
      rw [ih h, List.flatMap_cons, ← List.append_assoc]
      exact congrArg (· ++ _) hstop

/-! ## What is passed -/

/-- Of a prop that is passed, only the name counts, and for that the imports do not matter. -/
theorem name_passedProp? (env : Context) (child : ChildComponent) (a : Attribute) :
    (passedProp? env (some child) a).map (·.name) = (child.propOf? a.name).map (·.name) := by
  show ((child.propOf? a.name).bind fun matched => (child.props.find? fun p => p.name == matched.name).bind
    fun prop => some { prop with type := env.qualify prop.type }).map (·.name) = _
  cases hmatched : child.propOf? a.name with
  | none => rfl
  | some matched =>
    have hmem : matched ∈ child.props := List.mem_of_find?_eq_some hmatched
    obtain ⟨prop, hprop⟩ : ∃ prop, child.props.find? (fun p => p.name == matched.name) = some prop :=
      Option.isSome_iff_exists.1 (List.find?_isSome.2 ⟨matched, hmem, beq_self_eq_true _⟩)
    have hname := List.find?_some hprop
    rw [Option.bind_some, hprop]
    exact congrArg some (beq_iff_eq.1 hname)

/-- There is something to do about every attribute but the loop definition and the model binding. -/
theorem isSome_task? {a : Attribute} (e : Element) (hloop : AttributeKind.ofName a.name ≠ .loop)
    (hmodel : AttributeKind.ofName a.name ≠ .model) : (a.task? e).isSome = true := by
  unfold Attribute.task?
  cases hkind : AttributeKind.ofName a.name with
  | loop => exact absurd hkind hloop
  | model => exact absurd hkind hmodel
  | event | propertyBinding | conditional | directive | plain => rfl

/-- A prop is passed if some attribute about which there is something to do is looked up as it. -/
theorem mem_passedNames {env : Context} {as : List Attribute} {name : String}
    (hchild : childOf? env e = some child) : name ∈ passedNames env e as ↔
      ∃ a ∈ as, (a.task? e).isSome = true ∧ ∃ p, child.propOf? a.name = some p ∧ p.name = name := by
  simp only [passedNames, hchild, List.mem_flatMap, List.mem_filter, Option.mem_toList,
    name_passedProp?, Option.map_eq_some_iff, and_assoc]

/-- A prop is passed if an attribute spells its name. -/
theorem name_mem_passedNames_iff {env : Context} {p : DeclaredProp} (as : List Attribute)
    (hchild : childOf? env e = some child) (hnames : child.WellNamed) (hp : p ∈ child.props) :
    p.name ∈ passedNames env e as ↔ ∃ a ∈ as, p.SpelledBy a.name := by
  rw [mem_passedNames hchild]
  refine exists_congr fun a => and_congr_right fun _ => ?_
  constructor
  · rintro ⟨-, q, hq, hname⟩
    have hsame : q = p :=
      List.inj_on_of_nodup_map hnames.names (List.mem_of_find?_eq_some hq) hp hname
    exact (hnames.propOf?_eq_some_iff hp).1 (hsame ▸ hq)
  · intro hspelled
    obtain ⟨hloop, hmodel⟩ := hnames.ofName_of_spelledBy hp hspelled
    exact ⟨isSome_task? e hloop hmodel, p, (hnames.propOf?_eq_some_iff hp).2 hspelled, rfl⟩

/-- What the use of the component lacks: the required props of which no attribute spells the name. -/
def missingReport (job : Job) (child : ChildComponent) (e : Element) : List Diagnostic :=
  lacking job child e (child.requiredProps.filter fun p => ¬ ∃ a ∈ e.attributes, p.SpelledBy a.name)

/-- The props that are not found among those that are passed are those that no attribute spells. -/
theorem lacking_passedNames {env : Context} (hchild : childOf? env e = some child)
    (hnames : child.WellNamed) :
    lacking job child e
      (child.requiredProps.filter fun p => !(passedNames env e e.attributes).contains p.name) =
      missingReport job child e := by
  refine congrArg (lacking job child e) (List.filter_congr fun p hp => ?_)
  have hpassed := name_mem_passedNames_iff e.attributes hchild hnames (List.mem_of_mem_filter hp)
  rw [← List.contains_iff_mem] at hpassed
  rw [decide_not]
  exact congrArg not (Bool.eq_iff_iff.2 (hpassed.trans decide_eq_true_iff.symm))

/-- Compiling the attributes tells the names of the props that they pass. -/
theorem answer_attributes (job : Job) (e : Element) {p : Progress} {names : List String}
    (h : ((attributes job (childOf? p.context e) e.attributes).exec p).1 = .ok names) :
    names = passedNames p.context e e.attributes := by
  have hrun := mimics_attributes job p.context [] e e.attributes p
  rw [Context.within_nil] at hrun
  change (attributes job (childOf? p.context e) e.attributes).exec p = _ at hrun
  rw [hrun, exec_bind] at h
  rcases hfollow : (follow job p.context
      ((e.attributes.filterMap (·.task? e)).map (Stop.mk []))).exec p with ⟨answer, q⟩
  rw [hfollow] at h
  cases answer with
  | error error => cases h
  | ok u => exact (Except.ok.inj h).symm

/-- Compiling an element, if its attributes can be compiled, says what it lacks and nothing more of
this kind. -/
theorem saidMissing_own (job : Job) (children : List Node) {p : Progress} {names : List String}
    (hchild : childOf? p.context e = some child) (hnames : child.WellNamed)
    (h : ((attributes job (some child) e.attributes).exec p).1 = .ok names) :
    saidMissing ((own job e children).exec p).2 = saidMissing p ++ missingReport job child e := by
  have hspared := spares_attributes job (some child) e.attributes p
  rcases hrun : (attributes job (some child) e.attributes).exec p with ⟨answer, q⟩
  rw [hrun] at h hspared
  obtain rfl : answer = .ok names := h
  have hpassed : names = passedNames p.context e e.attributes := by
    apply answer_attributes job e
    rw [hchild, hrun]
  obtain ⟨r, hr, hsaid⟩ := exec_checkRequiredProps job child names e q
  rw [hpassed, lacking_passedNames hchild hnames] at hsaid
  rw [own_eq, exec_bind_of_ok (exec_context p), hchild, exec_bind_of_ok hrun]
  dsimp only
  rw [exec_bind_of_ok hr, spares_texts, hsaid, hspared]

/-- What is said of a use of a component whose names tell its props apart. -/
theorem lackingAt_eq (job : Job) {env : Context} (hchild : childOf? env e = some child)
    (hnames : child.WellNamed) : lackingAt job env e = missingReport job child e := by
  rw [lackingAt, hchild]
  exact lacking_passedNames hchild hnames

/-- What an element lacks depends on the child components only. -/
theorem lackingAt_congr (job : Job) {env ctx : Context} (h : env.children = ctx.children) (e : Element) :
    lackingAt job env e = lackingAt job ctx e := by
  have hchild : childOf? env e = childOf? ctx e := by rw [childOf?, childOf?, h]
  unfold lackingAt
  rw [hchild]
  cases hfound : childOf? ctx e with
  | none => rfl
  | some child =>
    have hsame : passedNames env e e.attributes = passedNames ctx e e.attributes := by
      unfold passedNames
      simp only [hchild, hfound, name_passedProp?]
    dsimp only
    rw [hsame]

/-- What is said of an element is about missing props, and at its start tag. -/
theorem mem_lackingAt {env : Context} {d : Diagnostic} (h : d ∈ lackingAt job env e) :
    d.isMissingProps = true ∧ d.range = some (SourceRange.ofSpan job.file e.startSpan) := by
  unfold lackingAt at h
  split at h
  · exact isMissingProps_of_mem_lacking h
  · cases h

/-! ## The whole compile -/

/-- Only the stops at which it is seen whether all props are passed say that some are not. -/
theorem flatMap_lackingAtStop {base ctx : Context} (h : base.children = ctx.children)
    (stops : List Stop) : stops.flatMap (lackingAtStop job base) =
      (stops.filterMap Markup.required?).flatMap (lackingAt job ctx) := by
  induction stops with
  | nil => rfl
  | cons stop stops ih =>
    obtain ⟨loops, task⟩ := stop
    rw [List.flatMap_cons, ih]
    cases task with
    | site place => rfl
    | plain e a => rfl
    | required e => exact congrArg (· ++ _) (lackingAt_congr job h e)

/-- What a successful compile says about missing props is what the elements lack, one after the other. -/
theorem missingProps_source (job : Job) {ctx : Context} {c : Compiled}
    (h : ((source job).exec { context := ctx }).1 = .ok c) :
    c.diagnostics.filter (·.isMissingProps) =
      (Markup.keptElements job.settings (Markup.Tree.ofSource job.file.content).nodes).flatMap
        (lackingAt job ctx) := by
  obtain ⟨q, p, r, hq, hp, hwalk, -, hdiagnostics⟩ := exec_source_walk job h
  -- nothing is said in front of the walk
  have hmarkup := spares_forM (spares_reportMarkup job) (Markup.Tree.ofSource job.file.content).errors
    { context := job.settings.implicitImports.foldl Context.addImplicitImport ctx }
  have himports := spares_forM spares_processImport
    (importElements job.settings (Markup.Tree.ofSource job.file.content).nodes) q
  have hsaid := saidMissing_follow _ _ hwalk
  have hchildren : (ctx.prepared job.settings (importElements job.settings
      (Markup.Tree.ofSource job.file.content).nodes)).children = ctx.children := rfl
  rw [hq] at hmarkup
  rw [hp, hmarkup] at himports
  rw [himports, flatMap_lackingAtStop hchildren, Markup.required?_rootStops] at hsaid
  rw [hdiagnostics]
  exact hsaid

end Compile

end Stencil
