import Stencil.Proofs.Basic
import Stencil.Proofs.Compile.Place
import Stencil.Proofs.Compile.Walk
import Stencil.Proofs.Output.Rewriting

/-!
# What a compiled template is

**The law** (`compileTemplate_rewrites`): a compiled template is its source with the outermost import
elements taken out and the visited places changed, and with all else copied in order. There is one
visit for each place of the template, each of them shows the call of its expression or its trimmed
text, and the expressions are numbered in the order of the visits.

What a compile does is taken apart first (`exec_source`): what the walk starts from, its visits, and
the result. The recorded edits are more than the changes of the template: import elements inside of
other ones record theirs too, to no effect. That no edit is lost rests on the layout of the tree, by
which the changes are apart from each other (`Markup.Laid.changes_apart`); that none is made twice
rests on the order of the visits, of which each has a place of its own (`spans_sublist`).

**What it does not establish.** Only a compile that succeeds has a template. Of one that fails, what
it has recorded up to there is known by its visits.
-/

namespace Stencil

open Text (byteSize)
open Markup (Attribute Element Node)

/-! ## What a visit changes -/

/-- An edit of an attribute changes its value. -/
theorem span_of_valueEdit? {a : Attribute} {text : String} {e : Edit}
    (h : valueEdit? a text = some e) : a.valueSpan = some e.span ∧ text ≠ a.value := by
  unfold valueEdit? at h
  split at h
  · next span hspan =>
    split at h
    · cases h
    · next hne =>
      cases h
      exact ⟨hspan, hne⟩
  · cases h

/-- No expression is read from an empty text. -/
theorem Expr.parse_empty : Expr.parse "" = .error .empty := by
  simp [Expr.parse, Token.readAll, Token.read, Token.readFrom, Expr.ofTokens]

namespace Visit

/-- What a visit changes has the span of its place. -/
theorem span_of_edit? {v : Visit} {e : Edit} (h : v.edit? = some e) :
    v.place.span? = some e.span := by
  unfold edit? at h
  unfold Place.span?
  cases hplace : v.place with
  | loop element a =>
    rw [hplace] at h
    exact (span_of_valueEdit? h).1
  | value element a =>
    rw [hplace] at h
    exact (span_of_valueEdit? h).1
  | marker offset m =>
    simp only [hplace] at h
    split at h
    · cases h
    · cases h
      rfl

/-- A site without text stays without text. -/
theorem Compiled.text_of_empty {job : Job} {v : Visit} (h : v.Compiled job)
    (hempty : Text.trimString v.written = "") : v.text = "" := by
  obtain ⟨-, after, hrun, -⟩ := h
  rw [hrun.answered _ rfl, Compile.shownText, hempty]
  cases hentry : v.expression? with
  | none => rfl
  | some entry =>
    obtain ⟨tree, hparse, -⟩ := hrun.entered entry hentry
    rw [hempty, Expr.parse_empty] at hparse
    cases hparse

/-- What a visit changes is a piece of the source. -/
theorem Compiled.holds_of_edit? {job : Job} {source : List Char} {v : Visit} {e : Edit}
    (h : v.Compiled job) (hlocated : v.place.Located source) (hedit : v.edit? = some e) :
    ∃ old, old ≠ [] ∧ e.span.Holds source old := by
  have hspan := span_of_edit? hedit
  have hfits := h.1
  unfold Fits at hfits
  -- The old text is not empty, since a site without text is left as it is.
  cases hplace : v.place with
  | loop element a =>
    rw [hplace] at hlocated hspan hfits
    obtain ⟨raw, hraw, hvalue⟩ := hlocated e.span hspan
    refine ⟨raw, ?_, hraw⟩
    rintro rfl
    -- a loop definition is never empty
    obtain ⟨outer, definition, hparse, -⟩ := hfits
    rw [hvalue] at hparse
    cases hparse
  | value element a =>
    rw [hplace] at hlocated hspan hfits
    obtain ⟨raw, hraw, hvalue⟩ := hlocated e.span hspan
    refine ⟨raw, ?_, hraw⟩
    rintro rfl
    obtain ⟨-, -, hwritten, hshown⟩ := hfits
    have htext := h.text_of_empty (by rw [hwritten, hvalue]; rfl)
    simp only [edit?, hplace] at hedit
    exact (span_of_valueEdit? hedit).2 (by rw [hshown, htext, hvalue]; rfl)
  | marker offset m =>
    rw [hplace] at hlocated hspan hfits
    obtain ⟨outer, houter, hinner⟩ := hlocated
    have heq : e.span = m.span offset := (Option.some.inj hspan).symm
    have hinside : Span.Holds (['\x7b', '\x7b'] ++ m.inside ++ ['\x7d', '\x7d'])
        ⟨2, 2 + byteSize m.inside⟩ m.inside := ⟨['\x7b', '\x7b'], ['\x7d', '\x7d'], rfl, rfl⟩
    refine ⟨m.inside, ?_, ?_⟩
    · intro hnil
      obtain ⟨-, hwritten, hshown⟩ := hfits
      have htext := h.text_of_empty (by rw [hwritten, hnil]; rfl)
      simp only [edit?, hplace, hshown, htext, hnil] at hedit
      split at hedit
      · cases hedit
      · next hne => exact hne rfl
    · have hstop := houter.stop_eq
      rw [← Markup.braced, Markup.byteSize_braced] at hstop
      have hspan' : m.span offset = ⟨outer.start + 2, outer.start + (2 + byteSize m.inside)⟩ := by
        rw [hinner, hstop]
        congr 1
        omega
      rw [heq, hspan']
      exact houter.shift hinside

end Visit

/-! ## The steps around the walk -/

namespace Compile

variable {job : Job}

/-- What is said of the markup is at most reported. -/
theorem silent_reportMarkup (e : Markup.MarkupError) : Silent (reportMarkup job e) := by
  unfold reportMarkup
  extract_lets details range
  split
  · exact silent_say _ _
  · exact silent_reportDiagnostic _

/-- A step that records nothing, for each member of a list. -/
theorem silent_forM {γ : Type} {f : γ → Compile Unit} (hf : ∀ c, Silent (f c)) (cs : List γ) :
    Silent (cs.forM f) := by
  induction cs with
  | nil => exact silent_pure
  | cons c cs ih => exact (hf c).bind ih

/-- An import element leaves its removal, and no expression. -/
theorem exec_processImport (e : Element) (p : Progress) :
    ∃ q, (processImport e).exec p = (.ok (), q) ∧
      q.edits = p.edits ++ [.remove e.span] ∧ q.result.expressions = p.result.expressions := by
  unfold processImport
  cases e.attribute? "class" <;> cases e.attribute? "static" <;> exact ⟨_, rfl, rfl, rfl⟩

/-- The import elements leave their removals, in their order, and no expression. -/
theorem exec_imports (es : List Element) (p : Progress) :
    ∃ q, (es.forM processImport).exec p = (.ok (), q) ∧
      q.edits = p.edits ++ es.map (fun e => .remove e.span) ∧
      q.result.expressions = p.result.expressions := by
  induction es generalizing p with
  | nil => exact ⟨p, rfl, by simp, rfl⟩
  | cons e es ih =>
    obtain ⟨q, hq, hedits, hexpressions⟩ := exec_processImport e p
    obtain ⟨r, hr, hedits', hexpressions'⟩ := ih q
    refine ⟨r, (exec_bind_of_ok hq).trans hr, ?_, hexpressions'.trans hexpressions⟩
    rw [hedits', hedits, List.map_cons, List.append_assoc, List.singleton_append]

/-- A compile, taken apart: what the walk starts from, its visits, and the result if there is one. -/
theorem exec_source (job : Job) (ctx : Context) :
    ∃ p vs q, p.edits = (importElements job.settings
        (Markup.Tree.ofSource job.file.content).nodes).map (fun e => .remove e.span) ∧
      p.result.expressions = [] ∧ Trail job p vs q ∧
      vs.map (·.place) <+:
        Markup.rootPlaces job.settings (Markup.Tree.ofSource job.file.content).nodes ∧
      ((source job).exec { context := ctx }).2.result.expressions = q.result.expressions ∧
      ∀ c, ((source job).exec { context := ctx }).1 = .ok c →
        vs.map (·.place) =
          Markup.rootPlaces job.settings (Markup.Tree.ofSource job.file.content).nodes ∧
        c = { q.result with
          template := String.ofList (Edit.applyAll job.file.content q.edits) } := by
  unfold source
  rw [exec_bind_of_ok (exec_modifyContext _ _)]
  obtain ⟨q, hq, -, hedits, hexpressions⟩ := silent_forM silent_reportMarkup
    (Markup.Tree.ofSource job.file.content).errors
    { context := job.settings.implicitImports.foldl Context.addImplicitImport ctx }
  rw [exec_bind_of_ok hq]
  obtain ⟨p, hp, hedits', hexpressions'⟩ := exec_imports
    (importElements job.settings (Markup.Tree.ofSource job.file.content).nodes) q
  rw [exec_bind_of_ok hp]
  have hvisits : Visits job _ (roots job (Markup.Tree.ofSource job.file.content).nodes) :=
    Visits.roots (Markup.Tree.ofSource job.file.content).nodes
  obtain ⟨vs, htrail, hsome, hall⟩ := hvisits p
  rcases hroots : (roots job (Markup.Tree.ofSource job.file.content).nodes).exec p with ⟨answer, r⟩
  rw [hroots] at htrail hall
  refine ⟨p, vs, r, by rw [hedits', hedits, List.nil_append],
    by rw [hexpressions', hexpressions], htrail, hsome, ?_⟩
  -- A walk that fails ends the compile; one that succeeds is followed by nothing that can fail.
  cases answer with
  | error error =>
    rw [exec_bind_of_error hroots]
    exact ⟨rfl, by rintro _ ⟨⟩⟩
  | ok u =>
    rw [exec_bind_of_ok hroots, exec_bind_of_ok (exec_get r), exec_bind_of_ok (exec_say _ _ _),
      exec_pure]
    exact ⟨rfl, fun c hc => ⟨hall u rfl, (Except.ok.inj hc).symm⟩⟩

end Compile

/-! ## The names of the expressions -/

/-- The expressions of a trail are numbered in the order of the visits. -/
theorem Trail.id_eq {job : Job} {p q : Progress} {vs : List Visit} (h : Trail job p vs q) {k : Nat}
    {entry : TemplateExpression} (hk : (vs.filterMap (·.expression?))[k]? = some entry) :
    entry.id = job.settings.expressionPrefix ++ toString (p.result.expressions.length + k) := by
  obtain ⟨front, v, back, heq, hentry, hlength⟩ := exists_split_of_filterMap _ _ _ _ hk
  obtain ⟨-, after, hrun, -⟩ := h.compiled v (by simp [heq])
  obtain ⟨tree, -, -, rfl⟩ := hrun.entered entry hentry
  rw [Compiled.nextExpression, h.counted front v back heq, List.length_append, hlength]

/-! ## The template -/

/-- What the visits of a trail change lies, place by place, in the spans of the places. -/
theorem spans_sublist (vs : List Visit) :
    ((vs.filterMap (·.edit?)).map (·.span)).Sublist ((vs.map (·.place)).filterMap Place.span?) := by
  induction vs with
  | nil => exact List.nil_sublist _
  | cons v vs ih =>
    rw [List.map_cons, List.filterMap_cons, List.filterMap_cons]
    cases hedit : v.edit? with
    | none =>
      cases hspan : v.place.span? with
      | none => exact ih
      | some span => exact ih.cons _
    | some e =>
      rw [Visit.span_of_edit? hedit]
      exact ih.cons_cons _

/-- The outermost import elements are pieces of the source. -/
theorem Markup.Laid.imports_cut {source : List Char} {lo hi : Nat} {nodes : List Node}
    (h : Laid source lo hi nodes) (settings : Settings) :
    ∀ e ∈ imports settings nodes, e.span.Cuts source := by
  obtain ⟨nested, hsplit, -⟩ := h.splitImports settings
  intro e he
  have hmem := hsplit.mem_iff.2 (List.mem_append_left _ he)
  obtain ⟨b, hb, rfl⟩ := List.mem_map.1 (List.mem_of_mem_filter hmem)
  exact (h.elements b hb).2.2

/-- What is taken out and what the visits change lie apart from each other. -/
theorem Markup.Laid.changes_apart {source : List Char} {lo hi : Nat} {nodes : List Node}
    (h : Laid source lo hi nodes) {settings : Settings} {vs : List Visit}
    (hplaces : vs.map (·.place) = rootPlaces settings nodes) :
    (((imports settings nodes).map (fun e => Edit.remove e.span) ++
      vs.filterMap Visit.edit?).map Edit.span).Pairwise Span.Apart := by
  have hsub : ((vs.filterMap (·.edit?)).map (·.span)).Sublist
      ((rootPlaces settings nodes).filterMap Place.span?) := hplaces ▸ spans_sublist vs
  have hall := (h.spread settings).perm
    (((rootPlaces_perm settings nodes).symm.filterMap _).append_left _)
  rw [List.map_append, List.map_map]
  exact (hall.sublist (hsub.append_left _)).2

end Stencil
