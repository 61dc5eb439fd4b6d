import Stencil.Context.Basic
import Stencil.Json.Basic
import Stencil.TypeRef.Parser

/-!
# Contexts as JSON

A context descriptor is an object that describes the component of a set of templates, and the names
that they can use without declaring them. All of its keys are optional, and so are those of a
component. Types are written as texts; a text that is no type spoils the whole descriptor.
-/

namespace Stencil

/-- The type that a JSON string spells. -/
def TypeRef.ofJson? (j : Json) : Option TypeRef := j.asString?.bind TypeRef.ofText?

namespace Members

/-- Types by name, from an object. Of several types for a name the last one counts. -/
def propertiesOfJson? (j : Json) : Option (Table TypeRef) := do
  let entries ← (← j.asObject?).mapM fun (name, type) => do return (name, ← TypeRef.ofJson? type)
  return .ofList entries

/-- What a component declares itself, from the fields of its object. -/
def ofFields? (fields : Json.Fields) : Option Members := do
  return {
    qualifiedName := ← fields.optional "qualifiedName" "" Json.asString?
    properties := ← fields.optional "properties" .empty propertiesOfJson?
    methods := (← fields.optional "methods" [] (Json.asListOf? Json.asString?)).eraseDups }

/-- What a component declares itself, as fields of its object. -/
def toFields (m : Members) : List (String × Json) :=
  [("qualifiedName", .string m.qualifiedName),
    ("properties", .object (m.properties.entries.map fun (name, type) => (name, .string type.print))),
    ("methods", .array (m.methods.map Json.string))]

end Members

namespace Component

/-- The keys of a component. -/
def jsonKeys : List String := ["qualifiedName", "properties", "methods", "parent"]

/-- The component that an object describes, the components it inherits from nested in it. -/
def ofJson? (j : Json) : Option Component :=
  match hf : Json.fields? jsonKeys j with
  | none => none
  | some fields => do
    let own ← Members.ofFields? fields
    match hp : fields.get? "parent" with
    | none => return ⟨own, []⟩
    | some parent =>
      have := Json.sizeOf_of_fields? hf hp
      if parent matches .null then return ⟨own, []⟩
      let parent ← ofJson? parent
      return ⟨own, parent.levels⟩
termination_by sizeOf j

/-- The object of a chain of components. -/
def levelsToJson (own : Members) : List Members → Json
  | [] => .object (own.toFields ++ [("parent", .null)])
  | parent :: more => .object (own.toFields ++ [("parent", levelsToJson parent more)])

/-- The component as an object. -/
def toJson (c : Component) : Json := levelsToJson c.own c.inherited

end Component

namespace DeclaredProp

/-- The prop that an object describes. -/
def ofJson? (j : Json) : Option DeclaredProp := do
  let fields ← Json.fields? ["propName", "attributeName", "type", "required"] j
  return {
    name := ← fields.required "propName" Json.asString?
    attributeName? := ← fields.optional "attributeName" none (Json.asOption? Json.asString?)
    type := ← fields.required "type" TypeRef.ofJson?
    required := ← fields.optional "required" false Json.asBool? }

/-- The prop as an object. -/
def toJson (p : DeclaredProp) : Json :=
  .object
    ([("propName", .string p.name)]
      ++ (p.attributeName?.map fun name => ("attributeName", Json.string name)).toList
      ++ [("type", .string p.type.print), ("required", .bool p.required)])

end DeclaredProp

namespace ChildComponent

/-- The child component that an object describes. -/
def ofJson? (j : Json) : Option ChildComponent := do
  let fields ← Json.fields? ["tagName", "props", "acceptsChildren"] j
  return {
    tagName := ← fields.required "tagName" Json.asString?
    props := ← fields.optional "props" [] (Json.asListOf? DeclaredProp.ofJson?)
    acceptsChildren := ← fields.optional "acceptsChildren" true Json.asBool? }

/-- The child component as an object. -/
def toJson (c : ChildComponent) : Json :=
  .object
    [("tagName", .string c.tagName), ("props", .array (c.props.map DeclaredProp.toJson)),
      ("acceptsChildren", .bool c.acceptsChildren)]

end ChildComponent

/-- What a set of templates belongs to and can refer to. -/
structure ContextDescriptor where
  component : Component := {}
  imports : List String := []
  staticImports : List String := []
  children : List ChildComponent := []

namespace ContextDescriptor

/-- The descriptor that an object gives. -/
def ofJson? (j : Json) : Option ContextDescriptor := do
  let fields ← Json.fields? ["component", "imports", "staticImports", "localComponents"] j
  return {
    component := ← fields.optional "component" {} Component.ofJson?
    imports := ← fields.optional "imports" [] (Json.asListOf? Json.asString?)
    staticImports := ← fields.optional "staticImports" [] (Json.asListOf? Json.asString?)
    children := ← fields.optional "localComponents" [] (Json.asListOf? ChildComponent.ofJson?) }

/-- A fresh context for a template. -/
def toContext (d : ContextDescriptor) : Context :=
  let ctx : Context := { component := d.component }
  let ctx := d.imports.foldl Context.addImport ctx
  let ctx := d.staticImports.foldl Context.addStaticImport ctx
  d.children.foldl Context.addChild ctx

end ContextDescriptor

end Stencil
