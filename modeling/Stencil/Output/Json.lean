import Stencil.Json.Basic
import Stencil.Output.Compiled

/-!
# Results as JSON

The form in which a compiled template is handed to the generator of code. The order of the keys is
part of the form. Absent parts of a diagnostic are left out.
-/

namespace Stencil

namespace Parameter

/-- The parameter as JSON. -/
def toJson (p : Parameter) : Json := .object [("name", .string p.name), ("type", .string p.type.print)]

end Parameter

namespace TemplateExpression

/-- The expression as JSON. -/
def toJson (e : TemplateExpression) : Json :=
  .object
    [("id", .string e.id), ("text", .string e.text), ("returnType", .string e.returnType.print),
      ("isPropBound", .bool e.isPropBound), ("kind", .string e.kind.text),
      ("parameters", .array (e.parameters.map Parameter.toJson))]

end TemplateExpression

namespace PassThrough

/-- The binding as JSON. -/
def toJson (p : PassThrough) : Json :=
  .object [("text", .string p.text), ("kind", .string p.kind.text)]

end PassThrough

namespace SourceRange

/-- The range as JSON: the offsets of both ends, the line and column of the start. -/
def toJson (r : SourceRange) : Json :=
  .object
    [("url", .string r.file.url), ("start", .ofNat r.start.offset), ("end", .ofNat r.stop.offset),
      ("line", .ofNat r.start.line), ("col", .ofNat r.start.column)]

end SourceRange

namespace Diagnostic

/-- The diagnostic as JSON. -/
def toJson (d : Diagnostic) : Json :=
  .object
    ([("level", .string "error"), ("msg", .string d.message)]
      ++ (d.context.map fun c => ("context", Json.string c)).toList
      ++ (d.range.map fun r => ("span", r.toJson)).toList)

end Diagnostic

namespace Compiled

/-- The compiled template as JSON. -/
def toJson (c : Compiled) : Json :=
  .object
    [("template", .string c.template),
      ("expressions", .array (c.expressions.map TemplateExpression.toJson)),
      ("passthroughBindings", .array (c.passThroughs.map PassThrough.toJson)),
      ("diagnostics", .array (c.diagnostics.map Diagnostic.toJson))]

end Compiled

end Stencil
