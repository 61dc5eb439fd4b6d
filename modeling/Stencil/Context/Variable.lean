import Stencil.TypeRef.Basic

/-!
# Variables

What a name in a template may stand for, apart from a class.
-/

namespace Stencil

/-- Where a variable comes from. -/
inductive Origin
  | property
  | method
  | loopLocal
  | eventParameter
  deriving DecidableEq, Repr

/-- A variable that a template can see. -/
structure Variable where
  name : String
  type : TypeRef
  origin : Origin
  deriving DecidableEq, Repr

/-- Whether generated code must receive the variable as an argument, because it is no member of the
component. -/
def Variable.isCaptured (v : Variable) : Bool :=
  match v.origin with
  | .loopLocal | .eventParameter => true
  | .property | .method => false

/-- The variables that one element declares, the newest first. -/
abbrev Scope := List Variable

/-- The newest variable of the name. -/
def Scope.find? (scope : Scope) (name : String) : Option Variable :=
  List.find? (fun v => v.name == name) scope

end Stencil
