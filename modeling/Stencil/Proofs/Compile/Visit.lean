import Stencil.Compile.Template
import Stencil.Proofs.Compile.Site

/-!
# The walk as a sequence of visits

Which places of a template hold an expression, and in which order they come, is a matter of the tree
alone: `places` lists them. Compiling the template visits these places, each once and in this order. A
visit is what happens at one of them: a site is compiled, and its answer, or for a loop the whole
definition with the answer in it, is put in the place. `Trail` says that all that a compile records
stems from a sequence of visits.

A compile that fails has made some of its visits, in order. So the statements about places hold of
every compile, and those of a successful one follow.

`Visits` is what one function of the walk is shown to do, and it is closed under what the walk is
built of: one step after the other (`Visits.bind`), a step for each member of a list (`Visits.forM`),
a scope around a step (`Visits.inScope`), and steps that record nothing (`Visits.silent`).

**What it does not establish.** Diagnostics and passed-through bindings are no part of a trail, and
neither is the log: a visit may leave any of them.
-/

namespace Stencil

open Markup (Attribute Element Node)

/-- A place of a template that holds an expression. -/
inductive Place
  /-- The definition of a loop. -/
  | loop (element : Element) (a : Attribute)
  /-- The value of any other attribute that is compiled. -/
  | value (element : Element) (a : Attribute)
  /-- An interpolation, in a text that starts at an offset. -/
  | marker (offset : Nat) (m : Markup.Marker)

/-! ## The places of a tree -/

namespace Markup

/-- The interpolations of the texts among the nodes. -/
def textPlaces (nodes : List Node) : List Place :=
  (childTexts nodes).flatMap fun (value, span) =>
    (markers value.toList).map (Place.marker span.start)

/-- Whether the value of the attribute is an expression. The definition of a loop is one of its
own. -/
def Attribute.isSite (a : Attribute) : Bool :=
  match AttributeKind.ofName a.name with
  | .loop | .model | .plain => false
  | .event | .propertyBinding | .conditional | .directive => true

/-- The places of an element, the loop definition first, without those of its child elements. -/
def Element.places (e : Element) (children : List Node) : List Place :=
  (e.attribute? "v-for").toList.map (.loop e) ++ (e.attributes.filter (·.isSite)).map (.value e)
    ++ textPlaces children

mutual

/-- The places of an element and below it. An import element has none. -/
def Node.places (settings : Settings) : Node → List Place
  | .element e children =>
    if Compile.isImport settings e then [] else e.places children ++ places settings children
  | .text .. | .comment .. => []

/-- The places of the elements among the nodes and below them. -/
def places (settings : Settings) : List Node → List Place
  | [] => []
  | node :: nodes => node.places settings ++ places settings nodes

end

/-- The places of a template, whose nodes these are. Texts outside of all elements have no parent to
see to them. -/
def rootPlaces (settings : Settings) (nodes : List Node) : List Place :=
  nodes.flatMap fun node => textPlaces [node] ++ node.places settings

end Markup

/-! ## Visits -/

/-- What giving an attribute a new value changes: nothing if it has that value, or none at all. -/
def valueEdit? (a : Attribute) (text : String) : Option Edit :=
  match a.valueSpan with
  | some span =>
    if text = a.value then none else some ⟨span, Compile.escapeQuote a.quote text.toList⟩
  | none => none

/-- What happens at a place. -/
structure Visit where
  place : Place
  /-- The progress when the site is reached. -/
  before : Progress
  site : BindingSite
  /-- The text of the site. -/
  written : String
  /-- The answer of the site. -/
  text : String
  /-- The expression that was added for the site, if any. -/
  expression? : Option TemplateExpression
  /-- What the place is to hold: the answer, or the loop definition with the answer in it. -/
  shown : String

namespace Visit

/-- The site is the one of the place, and what is to be shown is its answer. -/
def Fits (v : Visit) : Prop :=
  match v.place with
  | .loop _ a => ∃ outer definition, LoopDefinition.parse outer a.value = .ok definition ∧
    v.before.context = outer.declareAll definition.declared ∧
    v.site = ⟨some .loop, none, definition.iterableType, Compile.valueSpan a⟩ ∧
    v.written = definition.iterable ∧ v.shown = definition.render v.text
  | .value e a =>
    let kind := AttributeKind.ofName a.name
    let ctx := v.before.context
    let prop := Compile.passedProp? ctx (Compile.childOf? ctx e) a
    a.isSite = true ∧ v.site = ⟨some kind, prop, kind.expectedType prop, Compile.valueSpan a⟩ ∧
    v.written = a.value ∧ v.shown = v.text
  | .marker offset m => v.site = ⟨none, none, .string, m.span offset⟩ ∧
    v.written = String.ofList m.inside ∧ v.shown = v.text

/-- The site of the visit was compiled, with this answer and this expression. -/
def Compiled (job : Job) (v : Visit) : Prop :=
  v.Fits ∧ ∃ after, Compile.SiteRun job v.site v.written v.expression? (.ok v.text) v.before after ∧
    (Compile.site job v.site v.written).exec v.before = (.ok v.text, after)

/-- What the visit changes. A marker is left as it is when its inside, trimmed, is what it is to
hold. -/
def edit? (v : Visit) : Option Edit :=
  match v.place with
  | .loop _ a | .value _ a => valueEdit? a v.shown
  | .marker offset m =>
    if v.shown = Text.trimString (String.ofList m.inside) then none
    else some ⟨m.span offset, (" " ++ v.shown ++ " ").toList⟩

/-- The visit's text is the call of its expression, or the trimmed text of the site. -/
theorem Compiled.text_eq {job : Job} {v : Visit} (h : v.Compiled job) :
    v.text = Compile.shownText v.written v.expression? := by
  obtain ⟨-, after, hrun, -⟩ := h
  exact hrun.answered _ rfl

end Visit

/-! ## Trails -/

/-- All that was recorded between two points of progress stems from the visits. -/
structure Trail (job : Job) (p : Progress) (vs : List Visit) (q : Progress) : Prop where
  compiled : ∀ v ∈ vs, v.Compiled job
  edits : q.edits = p.edits ++ vs.filterMap (·.edit?)
  expressions : q.result.expressions = p.result.expressions ++ vs.filterMap (·.expression?)
  /-- Each visit adds to what the earlier ones have added. -/
  counted : ∀ us v ws, vs = us ++ v :: ws →
    v.before.result.expressions = p.result.expressions ++ us.filterMap (·.expression?)

namespace Trail

variable {job : Job} {p q r : Progress} {vs ws : List Visit}

/-- Where nothing is recorded, nothing is visited. -/
theorem refl (hedits : q.edits = p.edits)
    (hexpressions : q.result.expressions = p.result.expressions) : Trail job p [] q :=
  ⟨by simp, by simpa using hedits, by simpa using hexpressions, by simp⟩

/-- A trail may start from any progress with the same edits and expressions. -/
theorem start (h : Trail job p vs q) (hedits : p.edits = r.edits)
    (hexpressions : p.result.expressions = r.result.expressions) : Trail job r vs q :=
  ⟨h.compiled, hedits ▸ h.edits, hexpressions ▸ h.expressions, hexpressions ▸ h.counted⟩

/-- A trail goes on where another one ends. -/
theorem trans (h : Trail job p vs q) (h' : Trail job q ws r) : Trail job p (vs ++ ws) r := by
  refine ⟨?_, ?_, ?_, ?_⟩
  · intro v hv
    rcases List.mem_append.1 hv with hv | hv
    · exact h.compiled v hv
    · exact h'.compiled v hv
  · rw [h'.edits, h.edits, List.filterMap_append, List.append_assoc]
  · rw [h'.expressions, h.expressions, List.filterMap_append, List.append_assoc]
  · intro us v us' heq
    -- A visit of the second trail follows all of the first one; one of the first has the same visits
    -- in front of it as before.
    rcases List.append_eq_append_iff.1 heq with ⟨mid, rfl, hws⟩ | ⟨mid, rfl, hmid⟩
    · rw [h'.counted mid v us' hws, h.expressions, List.filterMap_append, List.append_assoc]
    · cases mid with
      | nil =>
        rw [List.append_nil] at h
        rw [h'.counted [] v us' hmid.symm, h.expressions, List.filterMap_nil, List.append_nil]
      | cons w mid =>
        obtain ⟨rfl, -⟩ := List.cons.inj hmid
        exact h.counted us v mid rfl

end Trail

/-- A run from `p`, of which this is the outcome, visits the places in this order. When it fails, it
has visited some of them. -/
def Visited {α : Type} (job : Job) (places : List Place) (p : Progress)
    (run : Except CompileError α × Progress) : Prop :=
  ∃ vs, Trail job p vs run.2 ∧ vs.map (·.place) <+: places ∧
    ∀ a, run.1 = .ok a → vs.map (·.place) = places

/-- The step visits the places, whatever the progress it starts from. -/
def Visits {α : Type} (job : Job) (places : List Place) (m : Compile α) : Prop :=
  ∀ p, Visited job places p (m.exec p)

section

open Compile

variable {α β : Type} {job : Job} {ps qs : List Place} {p : Progress}

/-- A step that records nothing has visited no place. -/
theorem Visited.nil {q : Progress} {answer : Except CompileError α} (hedits : q.edits = p.edits)
    (hexpressions : q.result.expressions = p.result.expressions) :
    Visited job [] p (answer, q) :=
  ⟨[], .refl hedits hexpressions, List.nil_prefix, fun _ _ => rfl⟩

/-- A step that fails at once has visited no place. -/
theorem Visited.error {q : Progress} {error : CompileError} (hedits : q.edits = p.edits)
    (hexpressions : q.result.expressions = p.result.expressions) :
    Visited job ps p ((.error error, q) : Except CompileError α × Progress) :=
  ⟨[], .refl hedits hexpressions, List.nil_prefix, by rintro _ ⟨⟩⟩

/-- A run has visited the same places from any progress with the same edits and expressions. -/
theorem Visited.start {q : Progress} {run : Except CompileError α × Progress}
    (h : Visited job ps p run) (hedits : p.edits = q.edits)
    (hexpressions : p.result.expressions = q.result.expressions) : Visited job ps q run := by
  obtain ⟨vs, htrail, hsome, hall⟩ := h
  exact ⟨vs, htrail.start hedits hexpressions, hsome, hall⟩

/-- Of two steps, the places of the first one come first. The second one counts only where the first
succeeds. -/
theorem Visited.bind {m : Compile α} {f : α → Compile β} (hm : Visited job ps p (m.exec p))
    (hf : ∀ a q, m.exec p = (.ok a, q) → Visited job qs q ((f a).exec q)) :
    Visited job (ps ++ qs) p ((m >>= f).exec p) := by
  obtain ⟨vs, htrail, hsome, hall⟩ := hm
  rcases h : m.exec p with ⟨answer, q⟩
  rw [h] at htrail hall
  cases answer with
  | error e =>
    rw [exec_bind_of_error h]
    exact ⟨vs, htrail, hsome.trans (List.prefix_append ps qs), by rintro _ ⟨⟩⟩
  | ok a =>
    obtain ⟨ws, htrail', hsome', hall'⟩ := hf a q h
    have hvs := hall a rfl
    rw [exec_bind_of_ok h]
    refine ⟨vs ++ ws, htrail.trans htrail', ?_, ?_⟩
    · rw [List.map_append, hvs]
      exact (List.prefix_append_right_inj ps).2 hsome'
    · intro b hb
      rw [List.map_append, hvs, hall' b hb]

/-- Two steps visit the places of the first and then those of the second. -/
theorem Visits.bind {m : Compile α} {f : α → Compile β} (hm : Visits job ps m)
    (hf : ∀ a, Visits job qs (f a)) : Visits job (ps ++ qs) (m >>= f) := fun p =>
  (hm p).bind fun a q _ => hf a q

theorem Visits.pure (a : α) : Visits job [] (Pure.pure a : Compile α) := fun _ => .nil rfl rfl

/-- A step that records nothing visits no place. -/
theorem Visits.silent {m : Compile Unit} (hm : Silent m) : Visits job [] m := by
  intro p
  obtain ⟨q, hq, -, hedits, hexpressions⟩ := hm p
  rw [hq]
  exact .nil hedits hexpressions

/-- A scope around a step does not matter to the places. -/
theorem Visits.inScope {m : Compile α} (hm : Visits job ps m) :
    Visits job ps (Compile.inScope m) := by
  intro p
  obtain ⟨vs, htrail, hsome, hall⟩ := hm { p with context := p.context.push }
  rw [exec_inScope]
  exact ⟨vs, ⟨htrail.compiled, htrail.edits, htrail.expressions, htrail.counted⟩, hsome, hall⟩

/-- A step for each member of a list visits the places of the members in their order. -/
theorem Visits.forM {γ : Type} {f : γ → Compile Unit} {places : γ → List Place}
    (hf : ∀ c, Visits job (places c) (f c)) (cs : List γ) :
    Visits job (cs.flatMap places) (cs.forM f) := by
  induction cs with
  | nil => exact .pure ()
  | cons c cs ih =>
    rw [List.flatMap_cons]
    exact (hf c).bind fun _ => ih

end

end Stencil
