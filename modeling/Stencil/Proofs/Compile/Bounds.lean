import Stencil.Proofs.Compile.Reread
import Stencil.Proofs.Markup.Scanned
import Stencil.Proofs.Markup.TreeSpan

/-!
# Nothing is cut out of range

**The law** (`compileTemplate_cuts_within`): whatever the template, the settings and the context are,
the source is only ever cut where it can be cut, on character boundaries within its bounds. The
scanner gets ahead in it from character to character; the spans of the tree fit it; the walk hands on
no other spans, so all that it records, and all that it says before it fails, is at spans that fit as
well; and putting the edits into the source cuts it between them.

For the cuts there are variants of the functions that fail on a cut out of range: the steps of the
scanner at an index, and `Edit.applyAll?`. They are shown to answer, and to answer what the functions
do (`Edit.applyFrom?_eq`). For what is recorded, `KeepsFit` is the invariant: a step that starts with
fitting spans leaves fitting spans, and fails at one. There is one lemma for each function of the
walk, up to `keepsFit_source`.

**What it does not establish.** An expression and a loop definition are read as texts of their own.
The spans in those are not spoken of, and no edit is at one of them.
-/

namespace Stencil

open Text (byteSize isBoundary)
open Markup (Attribute Element Node)

/-! ## Putting the edits into the source -/

namespace Edit

/-- The source from the offset `cursor` on, with the edits applied that are ahead of it. -/
def applyFrom? (source : List Char) : (cursor : Nat) → List Edit → Option (List Char)
  | cursor, [] => Text.dropBytes? cursor source
  | cursor, e :: es =>
    if e.span.start < cursor || byteSize source < e.span.stop then applyFrom? source cursor es
    else do
      let kept ← Text.slice? cursor e.span.start source
      let rest ← applyFrom? source e.span.stop es
      return kept ++ e.text ++ rest

/-- The source with the edits applied. -/
def applyAll? (source : List Char) (edits : List Edit) : Option (List Char) :=
  applyFrom? source 0 (edits.mergeSort le)

variable {source : List Char}

/-- Only the edits that have effect cut the source. -/
theorem applyFrom?_eq {cursor : Nat} {es : List Edit} (hcursor : isBoundary cursor source = true)
    (hes : ∀ e ∈ effective source cursor es, e.span.Fits source) :
    applyFrom? source cursor es = some (applyFrom source cursor es) := by
  -- By induction on the edits. The cut in front of an edit is within the source because the edit
  -- starts behind the cursor.
  induction es generalizing cursor with
  | nil => exact Text.dropBytes?_of_boundary hcursor
  | cons e es ih =>
    rw [effective] at hes
    rw [applyFrom?, applyFrom]
    split
    · next hskip =>
      rw [if_pos hskip] at hes
      exact ih hcursor hes
    · next hahead =>
      rw [if_neg hahead] at hes
      obtain ⟨he, hes⟩ := List.forall_mem_cons.1 hes
      -- what is kept lies between the cursor and the edit
      have hkept : Span.Fits source ⟨cursor, e.span.start⟩ := by
        refine ⟨?_, Text.le_byteSize_of_boundary he.start, hcursor, he.start⟩
        simp only [Bool.or_eq_true, decide_eq_true_eq] at hahead
        show cursor ≤ e.span.start
        omega
      have hslice := hkept.slice?
      dsimp only at hslice
      rw [hslice, ih he.stop hes]
      rfl

/-- Edits at spans that fit are put into the source without a cut out of range. -/
theorem applyAll?_eq {edits : List Edit} (h : ∀ e ∈ edits, e.span.Fits source) :
    applyAll? source edits = some (applyAll source edits) :=
  applyFrom?_eq (Text.isBoundary_zero source) fun e he =>
    h e (List.mem_mergeSort.1 ((effective_sublist source 0 _).subset he))

end Edit

/-! ## What is recorded and said -/

/-- The diagnostic has the range of a span that fits the source, and the offsets of its ends. -/
def Diagnostic.Fits (d : Diagnostic) (file : SourceFile) : Prop :=
  ∃ (span : Span) (r : SourceRange), span.Fits file.content ∧
    SourceRange.ofSpan? file span = some r ∧ d.PointsAt file span ∧ d.span? = some span

/-- A diagnostic at a span that fits has its range. -/
theorem Diagnostic.PointsAt.fits {d : Diagnostic} {file : SourceFile} {span : Span}
    (h : d.PointsAt file span) (hspan : span.Fits file.content) : d.Fits file := by
  refine ⟨span, _, hspan, hspan.ofSpan?, h, ?_⟩
  rw [h.span?, Location.offset_ofOffset_of_boundary hspan.start,
    Location.offset_ofOffset_of_boundary hspan.stop]

/-- All that was recorded is at spans that fit the source. -/
structure Progress.Fits (p : Progress) (file : SourceFile) : Prop where
  edits : ∀ e ∈ p.edits, e.span.Fits file.content
  diagnostics : ∀ d ∈ p.result.diagnostics, d.Fits file

/-- When an expression cannot be read, the last thing that is said names a place in the source. -/
def CompileError.Fits (file : SourceFile) (log : List LogRecord) : CompileError → Prop
  | .expression text cause => ∃ (span : Span) (r : SourceRange), span.Fits file.content ∧
    SourceRange.ofSpan? file span = some r ∧
    log.getLast? = some ⟨.error, s!"{cause.report text}: {r.place}"⟩
  | .loop _ => True

namespace Compile

variable {α β : Type} {file : SourceFile} {job : Job}

/-- The step keeps all that is recorded within the source, and fails within it. -/
def KeepsFit (file : SourceFile) (m : Compile α) : Prop :=
  ∀ p, p.Fits file → (m.exec p).2.Fits file ∧
    ∀ error, (m.exec p).1 = .error error → error.Fits file (m.exec p).2.log

/-! ## Steps put together -/

/-- Two steps that keep within the source, one after the other. -/
theorem KeepsFit.bind {m : Compile α} {f : α → Compile β} (hm : KeepsFit file m)
    (hf : ∀ a, KeepsFit file (f a)) : KeepsFit file (m >>= f) := by
  intro p hp
  obtain ⟨hq, herror⟩ := hm p hp
  rcases h : m.exec p with ⟨answer, q⟩
  rw [h] at hq herror
  cases answer with
  | error error =>
    rw [exec_bind_of_error h]
    refine ⟨hq, fun e he => ?_⟩
    obtain rfl := Except.error.inj he
    exact herror _ rfl
  | ok a =>
    rw [exec_bind_of_ok h]
    exact hf a q hq

/-- A scope around a step does not matter to the spans. -/
theorem KeepsFit.inScope {m : Compile α} (h : KeepsFit file m) : KeepsFit file (inScope m) := by
  intro p hp
  obtain ⟨hq, herror⟩ := h { p with context := p.context.push } ⟨hp.edits, hp.diagnostics⟩
  rw [exec_inScope]
  exact ⟨⟨hq.edits, hq.diagnostics⟩, herror⟩

/-- A step that keeps within the source, for each member of a list. -/
theorem KeepsFit.forM {γ : Type} {f : γ → Compile Unit} {cs : List γ}
    (h : ∀ c ∈ cs, KeepsFit file (f c)) : KeepsFit file (cs.forM f) := by
  induction cs with
  | nil => exact fun p hp => ⟨hp, nofun⟩
  | cons c cs ih =>
    obtain ⟨hc, hcs⟩ := List.forall_mem_cons.1 h
    exact hc.bind fun _ => ih hcs

/-- A step that records no edit and no diagnostic. -/
theorem keepsFit_of_same {m : Compile α}
    (h : ∀ p, ∃ a q, m.exec p = (.ok a, q) ∧ q.edits = p.edits ∧
      q.result.diagnostics = p.result.diagnostics) : KeepsFit file m := by
  intro p hp
  obtain ⟨a, q, hq, hedits, hdiagnostics⟩ := h p
  rw [hq]
  exact ⟨⟨hedits ▸ hp.edits, hdiagnostics ▸ hp.diagnostics⟩, nofun⟩

theorem keepsFit_pure (a : α) : KeepsFit file (pure a) :=
  keepsFit_of_same fun p => ⟨a, p, rfl, rfl, rfl⟩

theorem keepsFit_context : KeepsFit file context := keepsFit_of_same fun _ => ⟨_, _, rfl, rfl, rfl⟩

theorem keepsFit_get : KeepsFit file (get : Compile Progress) :=
  keepsFit_of_same fun _ => ⟨_, _, rfl, rfl, rfl⟩

theorem keepsFit_say (level : LogLevel) (message : String) : KeepsFit file (say level message) :=
  keepsFit_of_same fun _ => ⟨_, _, rfl, rfl, rfl⟩

theorem keepsFit_modifyContext (f : Context → Context) : KeepsFit file (modifyContext f) :=
  keepsFit_of_same fun _ => ⟨_, _, rfl, rfl, rfl⟩

theorem keepsFit_addExpression (e : TemplateExpression) :
    KeepsFit file (modifyResult (·.addExpression e)) := keepsFit_of_same fun _ => ⟨_, _, rfl, rfl, rfl⟩

theorem keepsFit_addPassThrough (e : PassThrough) :
    KeepsFit file (modifyResult (·.addPassThrough e)) := keepsFit_of_same fun _ => ⟨_, _, rfl, rfl, rfl⟩

/-- A loop definition that cannot be read fails without a span. -/
theorem keepsFit_throw_loop (error : LoopError) :
    KeepsFit file (throw (.loop error) : Compile α) := by
  intro p hp
  refine ⟨hp, fun e he => ?_⟩
  obtain rfl := Except.error.inj he
  trivial

/-! ## Steps at a span -/

/-- An edit at a span that fits. -/
theorem keepsFit_edit {e : Edit} (h : e.span.Fits file.content) : KeepsFit file (edit e) := by
  intro p hp
  refine ⟨⟨?_, hp.diagnostics⟩, nofun⟩
  exact List.forall_mem_append.2 ⟨hp.edits, List.forall_mem_singleton.2 h⟩

/-- A diagnostic at a span that fits. -/
theorem keepsFit_reportDiagnostic {d : Diagnostic} (h : d.Fits file) :
    KeepsFit file (reportDiagnostic d) := by
  intro p hp
  refine ⟨⟨hp.edits, ?_⟩, nofun⟩
  exact List.forall_mem_append.2 ⟨hp.diagnostics, List.forall_mem_singleton.2 h⟩

variable {span : Span}

/-- A report at a span that fits. -/
theorem keepsFit_report (message text : String) (h : span.Fits job.file.content) :
    KeepsFit job.file (report job message text span) :=
  keepsFit_reportDiagnostic (Diagnostic.PointsAt.fits ⟨none, rfl⟩ h)

/-- Every problem is reported at a span that fits. -/
theorem keepsFit_reports {γ : Type} (message : γ → String) (text : String)
    (h : span.Fits job.file.content) (problems : List γ) :
    KeepsFit job.file (forIn problems PUnit.unit fun problem _ => do
      report job (message problem) text span
      pure (ForInStep.yield PUnit.unit)) := by
  induction problems with
  | nil => exact keepsFit_pure _
  | cons problem problems ih =>
    rw [List.forIn_cons, bind_assoc]
    simp only [pure_bind]
    exact (keepsFit_report (message problem) text h).bind fun _ => ih

/-- Compiling a tree at a span that fits. -/
theorem keepsFit_expr (s : BindingSite) (text : String) (tree : Expr)
    (h : s.span.Fits job.file.content) : KeepsFit job.file (expr job s text tree) := by
  unfold expr
  refine keepsFit_context.bind fun ctx => ?_
  dsimp only
  split
  · refine keepsFit_get.bind fun p => ?_
    refine (keepsFit_addExpression _).bind fun _ => ?_
    exact (keepsFit_say _ _).bind fun _ => keepsFit_pure _
  · exact (keepsFit_reports _ text h _).bind fun _ => keepsFit_pure _

/-- An expression that cannot be read: its place is said, and nothing more. -/
theorem keepsFit_exprText (s : BindingSite) (text : String) (h : s.span.Fits job.file.content) :
    KeepsFit job.file (exprText job s text) := by
  unfold exprText
  split
  · exact keepsFit_expr s text _ h
  · next cause _ =>
    intro p hp
    rw [exec_bind_of_ok (exec_say ..), exec_throw]
    refine ⟨⟨hp.edits, hp.diagnostics⟩, fun error herror => ?_⟩
    obtain rfl := Except.error.inj herror
    exact ⟨s.span, _, h, h.ofSpan?, List.getLast?_concat⟩

/-- Compiling a site whose span fits. -/
theorem keepsFit_site (s : BindingSite) (written : String) (h : s.span.Fits job.file.content) :
    KeepsFit job.file (site job s written) := by
  unfold site
  extract_lets text finish
  split
  · split
    · exact (keepsFit_report _ _ h).bind fun _ => keepsFit_pure _
    · exact keepsFit_pure _
  · exact (keepsFit_report _ _ h).bind fun _ => keepsFit_pure _
  · exact (keepsFit_report _ _ h).bind fun _ => keepsFit_pure _
  · refine keepsFit_context.bind fun ctx => ?_
    split
    · refine (keepsFit_say _ _).bind fun _ => ?_
      exact (keepsFit_addPassThrough _).bind fun _ => keepsFit_pure _
    · exact keepsFit_exprText s text h

/-! ## The walk -/

/-- Compiling an interpolation whose inside fits. -/
theorem keepsFit_marker {offset : Nat} {m : Markup.Marker} (h : (m.span offset).Fits job.file.content) :
    KeepsFit job.file (marker job offset m) := by
  refine (keepsFit_site _ _ h).bind fun text => ?_
  split
  · exact keepsFit_edit h
  · exact keepsFit_pure ()

/-- Compiling the interpolations of a text whose spans fit. -/
theorem keepsFit_markers {value : String}
    (h : ∀ s ∈ (Node.text value span).spans, s.Fits job.file.content) :
    KeepsFit job.file (markers job value span) := by
  refine KeepsFit.forM fun m hm => keepsFit_marker (h _ ?_)
  rw [Node.spans]
  exact List.mem_cons_of_mem _ (List.mem_map_of_mem hm)

/-- The place of an attribute's expression is its value, or else the attribute. -/
theorem valueSpan_mem (a : Attribute) : valueSpan a ∈ a.spans := by
  unfold valueSpan Attribute.spans
  cases a.valueSpan with
  | none => exact List.mem_cons_self
  | some span => exact List.mem_cons_of_mem _ List.mem_cons_self

section

variable {a : Attribute} (h : ∀ s ∈ a.spans, s.Fits job.file.content)
include h

/-- Giving an attribute its new value, at the span of the old one. -/
theorem keepsFit_setValue (text : String) : KeepsFit job.file (setValue a text) := by
  unfold setValue
  cases ha : a.valueSpan with
  | none => exact keepsFit_pure ()
  | some span =>
    have hspan : span ∈ a.spans := by simp [Attribute.spans, ha]
    dsimp only
    split
    · exact keepsFit_pure ()
    · exact keepsFit_edit (h span hspan)

/-- Compiling a loop definition. -/
theorem keepsFit_loop : KeepsFit job.file (loop job a) := by
  unfold loop
  refine keepsFit_context.bind fun ctx => ?_
  split
  · exact keepsFit_throw_loop _
  · refine (keepsFit_modifyContext _).bind fun _ => (keepsFit_say _ _).bind fun _ => ?_
    exact (keepsFit_site _ _ (h _ (valueSpan_mem a))).bind fun text => keepsFit_setValue h _

/-- Compiling the value of an attribute. -/
theorem keepsFit_value (kind : AttributeKind) (prop : Option DeclaredProp) :
    KeepsFit job.file (value job kind prop a) := by
  unfold value
  split
  · split
    · split
      · exact keepsFit_report _ _ (h _ List.mem_cons_self)
      · exact keepsFit_pure ()
    · exact keepsFit_pure ()
  · exact (keepsFit_site _ _ (h _ (valueSpan_mem a))).bind fun text => keepsFit_setValue h text

end

/-- Compiling attributes whose spans fit. -/
theorem keepsFit_attributes (child : Option ChildComponent) {as : List Attribute}
    (h : ∀ a ∈ as, ∀ s ∈ a.spans, s.Fits job.file.content) :
    KeepsFit job.file (attributes job child as) := by
  induction as with
  | nil => exact keepsFit_pure _
  | cons a as ih =>
    obtain ⟨ha, has⟩ := List.forall_mem_cons.1 h
    by_cases hskip : AttributeKind.ofName a.name = .loop ∨ AttributeKind.ofName a.name = .model
    · rw [Visits.attributes_cons_skip hskip]
      exact ih has
    · rw [not_or] at hskip
      rw [Visits.attributes_cons hskip.1 hskip.2]
      refine keepsFit_context.bind fun ctx => (keepsFit_value ha _ _).bind fun _ => ?_
      exact (ih has).bind fun _ => keepsFit_pure _

/-- Compiling the texts among nodes whose spans fit. -/
theorem keepsFit_childTexts {children : List Node}
    (h : ∀ s ∈ Markup.spansOf children, s.Fits job.file.content) :
    KeepsFit job.file ((Markup.childTexts children).forM fun t => markers job t.1 t.2) := by
  refine KeepsFit.forM fun t ht => keepsFit_markers fun s hs => h s ?_
  exact Markup.spans_subset_of_mem (Markup.mem_of_mem_childTexts ht) hs

/-- An element apart from its child elements. -/
theorem keepsFit_own {e : Element} {children : List Node}
    (h : ∀ s ∈ e.spans, s.Fits job.file.content)
    (hchildren : ∀ s ∈ Markup.spansOf children, s.Fits job.file.content) :
    KeepsFit job.file (own job e children) := by
  have hattributes : ∀ a ∈ e.attributes, ∀ s ∈ a.spans, s.Fits job.file.content :=
    fun a ha s hs => h s (Element.spans_subset_of_mem ha hs)
  unfold own
  refine keepsFit_context.bind fun ctx => ?_
  refine (keepsFit_attributes _ hattributes).bind fun passed => ?_
  cases childOf? ctx e with
  | none => exact keepsFit_childTexts hchildren
  | some child =>
    refine KeepsFit.bind ?_ fun _ => keepsFit_childTexts hchildren
    unfold checkRequiredProps
    extract_lets missing
    split
    · exact keepsFit_report _ _ (h _ (by simp [Element.spans]))
    · exact keepsFit_pure ()

mutual

/-- Compiling an element, with its loop and its child elements. -/
theorem keepsFit_element (node : Node) (h : ∀ s ∈ node.spans, s.Fits job.file.content) :
    KeepsFit job.file (element job node) := by
  cases node with
  | text value span => exact keepsFit_pure ()
  | comment value span => exact keepsFit_pure ()
  | element e children =>
    rw [Node.spans] at h
    obtain ⟨htag, hchildren⟩ := List.forall_mem_append.1 h
    by_cases himport : isImport job.settings e = true
    · rw [element, if_pos himport]
      exact keepsFit_pure ()
    · have hbelow : KeepsFit job.file (do own job e children; elements job children) :=
        (keepsFit_own htag hchildren).bind fun _ => keepsFit_elements children hchildren
      cases ha : e.attribute? "v-for" with
      | none =>
        rw [Visits.element_plain himport ha]
        exact hbelow
      | some a =>
        have hmem : a ∈ e.attributes := List.mem_of_find?_eq_some ha
        rw [Visits.element_loop himport ha]
        refine KeepsFit.inScope ((keepsFit_loop ?_).bind fun _ => hbelow)
        exact fun s hs => htag s (Element.spans_subset_of_mem hmem hs)

/-- Compiling the elements among the nodes. -/
theorem keepsFit_elements (nodes : List Node)
    (h : ∀ s ∈ Markup.spansOf nodes, s.Fits job.file.content) :
    KeepsFit job.file (elements job nodes) := by
  cases nodes with
  | nil => exact keepsFit_pure ()
  | cons node nodes =>
    rw [Markup.spansOf] at h
    obtain ⟨hnode, hnodes⟩ := List.forall_mem_append.1 h
    rw [elements]
    exact (keepsFit_element node hnode).bind fun _ => keepsFit_elements nodes hnodes

end

/-- The whole walk over nodes whose spans fit. -/
theorem keepsFit_roots (nodes : List Node)
    (h : ∀ s ∈ Markup.spansOf nodes, s.Fits job.file.content) :
    KeepsFit job.file (roots job nodes) := by
  induction nodes with
  | nil => exact keepsFit_pure ()
  | cons node nodes ih =>
    rw [Markup.spansOf] at h
    obtain ⟨hnode, hnodes⟩ := List.forall_mem_append.1 h
    cases node with
    | text value span =>
      rw [roots]
      exact (keepsFit_markers hnode).bind fun _ => ih hnodes
    | comment value span =>
      rw [roots]
      · exact (keepsFit_element _ hnode).bind fun _ => ih hnodes
      · rintro _ _ ⟨⟩
    | element e children =>
      rw [roots]
      · exact (keepsFit_element _ hnode).bind fun _ => ih hnodes
      · rintro _ _ ⟨⟩

/-! ## The whole compile -/

/-- What is said of the markup is at the span of the error. -/
theorem keepsFit_reportMarkup {e : Markup.MarkupError} (h : e.span.Fits job.file.content) :
    KeepsFit job.file (reportMarkup job e) := by
  unfold reportMarkup
  extract_lets details range
  split
  · exact keepsFit_say _ _
  · exact keepsFit_reportDiagnostic (Diagnostic.PointsAt.fits ⟨details, rfl⟩ h)

/-- An import element leaves its removal, at its own span. -/
theorem keepsFit_processImport {e : Element} (h : e.span.Fits file.content) :
    KeepsFit file (processImport e) := by
  have hremove : KeepsFit file (edit (.remove e.span)) := keepsFit_edit h
  unfold processImport
  cases e.attribute? "class" with
  | none =>
    cases e.attribute? "static" with
    | none => exact hremove
    | some member =>
      exact (keepsFit_modifyContext _).bind fun _ => (keepsFit_say _ _).bind fun _ => hremove
  | some name =>
    refine (keepsFit_modifyContext _).bind fun _ => (keepsFit_say _ _).bind fun _ => ?_
    cases e.attribute? "static" with
    | none => exact hremove
    | some member =>
      exact (keepsFit_modifyContext _).bind fun _ => (keepsFit_say _ _).bind fun _ => hremove

/-- A compile keeps within its source. -/
theorem keepsFit_source (job : Job) : KeepsFit job.file (source job) := by
  have hspans : ∀ s ∈ (Markup.Tree.ofSource job.file.content).spans, s.Fits job.file.content :=
    Markup.fits_of_mem_spans
  obtain ⟨hnodes, herrors⟩ := List.forall_mem_append.1 hspans
  unfold source
  refine (keepsFit_modifyContext _).bind fun _ => ?_
  refine (KeepsFit.forM fun error herror => keepsFit_reportMarkup ?_).bind fun _ => ?_
  · exact herrors _ (List.mem_map_of_mem herror)
  refine (KeepsFit.forM fun e he => keepsFit_processImport ?_).bind fun _ => ?_
  · obtain ⟨b, hb, rfl⟩ := List.mem_map.1 (List.mem_of_mem_filter he)
    exact ((Markup.laid_ofSource job.file.content).elements b hb).2.2.fits
  refine (keepsFit_roots _ hnodes).bind fun _ => keepsFit_get.bind fun p => ?_
  exact (keepsFit_say _ _).bind fun _ => keepsFit_pure _

/-- All that a compile records is at spans that fit the source, and so is what it fails at. -/
theorem exec_source_fits (job : Job) (ctx : Context) :
    ((source job).exec { context := ctx }).2.Fits job.file ∧
      ∀ error, ((source job).exec { context := ctx }).1 = .error error →
        error.Fits job.file ((source job).exec { context := ctx }).2.log :=
  keepsFit_source job { context := ctx } ⟨nofun, nofun⟩

end Compile

/-- Compiling never cuts the source where it cannot be cut. From every place in front of the end, the
scanner comes to a later one: by a character, by a round of the loop over a start tag, and by a step of
the loop over the source; so it comes to the end, with the pieces of the source. The spans of the tree
fit the source. Whether the compile fails or not, so do the spans of the edits it has recorded, between
which the source is then cut, and those of the diagnostics and of the message of the error. -/
theorem compileTemplate_cuts_within (settings : Settings) (url template : String) (ctx : Context) :
    let source := template.toList
    let file : SourceFile := ⟨url, source⟩
    let recorded := ((Compile.source ⟨settings, file⟩).exec { context := ctx }).2
    let outcome := compileTemplate settings url template ctx
    (∀ index, index < byteSize source → isBoundary index source = true →
      (∃ next, Markup.Scan.advance source index = some next ∧
        Markup.Scan.Forward source index next) ∧
      (∃ round, Markup.Scan.tagRound source index = some round ∧
        Markup.Scan.Forward source index round.stop) ∧
      ∃ ps next, Markup.Scan.step source index = some (ps, next) ∧
        Markup.Scan.Forward source index next) ∧
    Markup.Scan.pieces source = some (Markup.pieces source) ∧
    (∀ span ∈ (Markup.Tree.ofSource source).spans, span.Fits source) ∧
    recorded.Fits file ∧
    (∀ c, outcome.answer = .ok c →
      (Edit.applyAll? source recorded.edits).map String.ofList = some c.template ∧
      c.diagnostics = recorded.result.diagnostics) ∧
    ∀ error, outcome.answer = .error error → error.Fits file outcome.log := by
  intro source file recorded outcome
  obtain ⟨hfits, herror⟩ := Compile.exec_source_fits ⟨settings, file⟩ ctx
  refine ⟨fun index hlt h => ⟨?_, ?_, ?_⟩, Markup.Scan.pieces_eq source, Markup.fits_of_mem_spans,
    hfits, fun c hc => ?_, herror⟩
  · exact Markup.Scan.advance_forward hlt h
  · exact Markup.Scan.tagRound_forward hlt h
  · exact Markup.Scan.step_forward hlt h
  · rw [Compile.exec_source_answer hc, Edit.applyAll?_eq hfits.edits]
    exact ⟨rfl, rfl⟩

/-- A marker behind a character of two bytes, in front of a tag that nothing closes: both expressions
are replaced. One that cannot be read at such a place is reported there. -/
theorem compileTemplate_cuts_within_unclosed :
    let read := "é\x7b\x7b1\x7d\x7d<p :x='2"
    let unread := "é\x7b\x7b1\x7d\x7d<p :x='ü+"
    let edits := ((Compile.source ⟨{}, ⟨"a.html", read.toList⟩⟩).exec { context := {} }).2.edits
    (2 < byteSize read.toList ∧ isBoundary 2 read.toList = true ∧
      ∃ ps next, Markup.Scan.step read.toList 2 = some (ps, next) ∧
        Markup.Scan.Forward read.toList 2 next) ∧
    (∃ c, (compileTemplate {} "a.html" read {}).answer = .ok c ∧
      (Edit.applyAll? read.toList edits).map String.ofList = some c.template) ∧
    ∃ error, (compileTemplate {} "a.html" unread {}).answer = .error error ∧
      error.Fits ⟨"a.html", unread.toList⟩ (compileTemplate {} "a.html" unread {}).log := by
  intro read unread edits
  obtain ⟨hscan, -, -, -, hok, -⟩ := compileTemplate_cuts_within {} "a.html" read {}
  obtain ⟨-, -, -, -, -, herror⟩ := compileTemplate_cuts_within {} "a.html" unread {}
  have hread : (compileTemplate {} "a.html" read {}).answer.toOption.isSome = true := by
    decide +kernel
  have hunread : (compileTemplate {} "a.html" unread {}).answer.toOption.isSome = false := by
    decide +kernel
  have hlt : 2 < byteSize read.toList := by decide +kernel
  have hboundary : isBoundary 2 read.toList = true := by decide +kernel
  refine ⟨⟨hlt, hboundary, (hscan 2 hlt hboundary).2.2⟩, ?_, ?_⟩
  · cases hc : (compileTemplate {} "a.html" read {}).answer with
    | error error => simp [hc, Except.toOption] at hread
    | ok c => exact ⟨c, rfl, (hok c hc).1⟩
  · cases hc : (compileTemplate {} "a.html" unread {}).answer with
    | error error => exact ⟨error, rfl, herror error hc⟩
    | ok c => simp [hc, Except.toOption] at hunread

end Stencil
