import Stencil.Compile.Expression
import Stencil.Markup.Basic
import Stencil.Markup.Marker

/-!
# Compiling elements

The walk over the tree of a template. For each element come, in this order, its loop definition, its
other attributes from left to right, its own texts, and then its child elements. Import elements are
passed over.

The variables of a loop are known in the whole element, but nowhere else: the element is compiled in
a scope of its own.
-/

namespace Stencil

open Markup (Attribute Element Node)

namespace Compile

/-! ## Texts -/

/-- Compiles one interpolation in a text that starts at `offset`. -/
def marker (job : Job) (offset : Nat) (m : Markup.Marker) : Compile Unit := do
  let span := m.span offset
  let inside := String.ofList m.inside
  let text ← site job ⟨none, none, .string, span⟩ inside
  if text != Text.trimString inside then
    edit ⟨span, (" " ++ text ++ " ").toList⟩

/-- Compiles the interpolations in a text. -/
def markers (job : Job) (value : String) (span : Span) : Compile Unit :=
  (Markup.markers value.toList).forM (marker job span.start)

/-! ## Attributes -/

/-- The place of an attribute's expression. -/
def valueSpan (a : Attribute) : Span := a.valueSpan.getD a.span

/-- The text as it is written between the quotes of an attribute value. -/
def escapeQuote (quote : Option Char) (text : List Char) : List Char :=
  match quote with
  | some '"' => Text.replaceChar '"' "&quot;".toList text
  | some '\'' => Text.replaceChar '\'' "&#39;".toList text
  | _ => text

/-- Gives an attribute a new value. -/
def setValue (a : Attribute) (text : String) : Compile Unit :=
  match a.valueSpan with
  | some span => if text = a.value then pure () else edit ⟨span, escapeQuote a.quote text.toList⟩
  | none => pure ()

/-- Compiles a loop definition and declares its variables. -/
def loop (job : Job) (a : Attribute) : Compile Unit := do
  match LoopDefinition.parse (← context) a.value with
  | .error error => throw (.loop error)
  | .ok loop =>
    modifyContext (·.declareAll loop.declared)
    say .debug s!"Entered loop scope with {loop.head}"
    let text ← site job ⟨some .loop, none, loop.iterableType, valueSpan a⟩ loop.iterable
    setValue a (loop.render text)

/-- What is said about a plain attribute that passes a text to a prop of another type. -/
def plainPropMessage (prop : DeclaredProp) : String :=
  s!"Passing a String to a non String Prop: \"{prop.name}\". If you want to pass a boolean or an int you should use v-bind. For example: v-bind:my-prop=\"12\" (or using the short syntax, :my-prop=\"12\") instead of my-prop=\"12\"."

/-- The prop of a child component that an attribute passes, its type qualified. -/
def passedProp? (ctx : Context) (child : Option ChildComponent) (a : Attribute) :
    Option DeclaredProp := do
  let child ← child
  let matched ← child.propOf? a.name
  let prop ← child.props.find? fun p => p.name == matched.name
  return { prop with type := ctx.qualify prop.type }

/-- Compiles an attribute that is neither a loop nor a model. -/
def value (job : Job) (kind : AttributeKind) (prop : Option DeclaredProp)
    (a : Attribute) : Compile Unit := do
  if kind = .plain then
    match prop with
    | some prop =>
      if !prop.type.isString then
        report job (plainPropMessage prop) (job.sourceText a.span) a.span
    | none => pure ()
  else
    let text ← site job ⟨some kind, prop, kind.expectedType prop, valueSpan a⟩ a.value
    setValue a text

/-- Compiles the attributes of a use of a child component, or of another element. Returns the names
of the props that they pass. -/
def attributes (job : Job) (child : Option ChildComponent) :
    List Attribute → Compile (List String)
  | [] => return []
  | a :: as => do
    match AttributeKind.ofName a.name with
    | .loop | .model => attributes job child as
    | kind =>
      let prop := passedProp? (← context) child a
      value job kind prop a
      return (prop.map (·.name)).toList ++ (← attributes job child as)

/-- What is said about the props that a use of a child component should pass and does not. -/
def missingPropsMessage (child : ChildComponent) (missing : List DeclaredProp) : String :=
  let names := Text.joinWith "," (missing.map fun p => "\"" ++ p.attributeName ++ "\"")
  s!"Missing required property: {names} on child component \"{child.tagName}\""

/-- Reports the props that a use of a child component should pass and does not. -/
def checkRequiredProps (job : Job) (child : ChildComponent) (passed : List String) (e : Element) :
    Compile Unit := do
  let missing := child.requiredProps.filter fun p => !passed.contains p.name
  if !missing.isEmpty then
    report job (missingPropsMessage child missing) (job.sourceText e.startSpan) e.startSpan

/-! ## Elements -/

/-- The child component that an element is a use of. Its `is` attribute counts before its name. -/
def childOf? (ctx : Context) (e : Element) : Option ChildComponent :=
  ctx.children.component? (((e.attribute? "is").map (·.value)).getD e.name)

/-- Compiles the attributes and texts of an element. -/
def own (job : Job) (e : Element) (children : List Node) : Compile Unit := do
  let child := childOf? (← context) e
  let passed ← attributes job child e.attributes
  match child with
  | some child => checkRequiredProps job child passed e
  | none => pure ()
  (Markup.childTexts children).forM fun (value, span) => markers job value span

/-- Whether the element only imports something. -/
def isImport (settings : Settings) (e : Element) : Bool :=
  Text.sameIgnoringCase e.name settings.importElement

mutual

/-- Compiles an element. Texts and comments are passed over: their parent sees to them. -/
def element (job : Job) : Node → Compile Unit
  | .element e children =>
    if isImport job.settings e then pure ()
    else
      match e.attribute? "v-for" with
      | some a => inScope do
        loop job a
        own job e children
        elements job children
      | none => do
        own job e children
        elements job children
  | .text .. | .comment .. => pure ()

/-- Compiles the elements among the nodes. -/
def elements (job : Job) : List Node → Compile Unit
  | [] => pure ()
  | node :: nodes => do
    element job node
    elements job nodes

end

/-- Compiles the nodes outside of all elements, texts and elements as they come. -/
def roots (job : Job) : List Node → Compile Unit
  | [] => pure ()
  | node :: nodes => do
    match node with
    | .text value span => markers job value span
    | node => element job node
    roots job nodes

end Compile

end Stencil
