import Stencil.Table
import Stencil.Text.Naming
import Stencil.Text.WhiteSpace

/-!
# Imports

Imports make a class, or a static member of a class, known by its simple name. White space around
the qualified name does not count. An explicit import replaces an earlier one of the same simple
name; an implicit import never does.
-/

namespace Stencil

/-- Qualified names by simple name. -/
structure Imports where
  names : Table String := .empty

namespace Imports

/-- Imports a qualified name. -/
def add (imports : Imports) (qualified : String) : Imports :=
  let qualified := Text.trimString qualified
  ⟨imports.names.insert (Text.simpleName qualified) qualified⟩

/-- Imports a qualified name, unless its simple name is taken. -/
def addImplicit (imports : Imports) (qualified : String) : Imports :=
  let qualified := Text.trimString qualified
  ⟨imports.names.insertNew (Text.simpleName qualified) qualified⟩

/-- Whether the name is imported, be it given as simple or as qualified name. -/
def knows (imports : Imports) (name : String) : Bool :=
  imports.names.contains name || imports.names.values.contains name

/-- The qualified name of a member. A name that is not imported stays as it is. -/
def qualifyMember (imports : Imports) (name : String) : String :=
  (imports.names.find? name).getD name

/-- The qualified name of a class, or of a class nested in an imported one. Any other name stays as
it is. -/
def qualifyClass (imports : Imports) (name : String) : String :=
  match imports.names.find? name with
  | some qualified => qualified
  | none =>
    let nested := do
      let (outer, inner) ← Text.cutAtChar '.' name.toList
      let qualified ← imports.names.find? (String.ofList outer)
      return qualified ++ "." ++ String.ofList inner
    nested.getD name

end Imports

end Stencil
