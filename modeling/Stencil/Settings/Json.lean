import Stencil.Json.Basic
import Stencil.Settings.Basic

/-!
# Settings as JSON

An object with a key for every setting. A setting whose key is missing has its default.
-/

namespace Stencil

namespace Settings

/-- The keys of the settings. -/
def jsonKeys : List String :=
  ["importElement", "eventParameter", "optimizeSimpleBindings", "expressionPrefix",
    "implicitImports", "lenientMarkup"]

/-- The settings that an object gives. -/
def ofJson? (j : Json) : Option Settings := do
  let fields ← Json.fields? jsonKeys j
  let d : Settings := {}
  return {
    importElement := ← fields.optional "importElement" d.importElement Json.asString?
    eventParameter := ← fields.optional "eventParameter" d.eventParameter Json.asString?
    optimizeSimpleBindings :=
      ← fields.optional "optimizeSimpleBindings" d.optimizeSimpleBindings Json.asBool?
    expressionPrefix := ← fields.optional "expressionPrefix" d.expressionPrefix Json.asString?
    implicitImports :=
      ← fields.optional "implicitImports" d.implicitImports (Json.asListOf? Json.asString?)
    lenientMarkup := ← fields.optional "lenientMarkup" d.lenientMarkup Json.asBool? }

/-- The settings as an object. -/
def toJson (s : Settings) : Json :=
  .object
    [("importElement", .string s.importElement), ("eventParameter", .string s.eventParameter),
      ("optimizeSimpleBindings", .bool s.optimizeSimpleBindings),
      ("expressionPrefix", .string s.expressionPrefix),
      ("implicitImports", .array (s.implicitImports.map Json.string)),
      ("lenientMarkup", .bool s.lenientMarkup)]

end Settings

end Stencil
