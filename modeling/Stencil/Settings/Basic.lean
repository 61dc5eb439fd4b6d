/-!
# Settings

What can be chosen about a compile. Settings are given to each compile; there are no global ones.
-/

namespace Stencil

/-- The classes that can be used without an import, unless the settings say otherwise. -/
def defaultImplicitImports : List String :=
  ["java.lang.Boolean", "java.lang.Byte", "java.lang.Character", "java.lang.Double",
    "java.lang.Float", "java.lang.Integer", "java.lang.Long", "java.lang.Math", "java.lang.Object",
    "java.lang.Short", "java.lang.String"]

/-- The settings of a compile. -/
structure Settings where
  /-- The element that imports classes and static members. -/
  importElement : String := "vue-gwt:import"
  /-- The name of the event inside an event binding. -/
  eventParameter : String := "$event"
  /-- Whether an expression that only names a variable or method stays as it is. -/
  optimizeSimpleBindings : Bool := true
  /-- What the names of generated expressions start with. -/
  expressionPrefix : String := "exp"
  implicitImports : List String := defaultImplicitImports
  /-- Whether malformed markup is only logged. -/
  lenientMarkup : Bool := true
  deriving DecidableEq, Repr

end Stencil
