import Stencil.Token.Basic

/-!
# Type references

The type of an expression, as text that generated code can hold: no result, anything, or a named
type with arguments and array dimensions. Primitive types are named types whose name is reserved.
-/

namespace Stencil

/-- A reference to a type. -/
inductive TypeRef
  /-- No result is expected. -/
  | void
  /-- Nothing is known about the type. -/
  | dynamic
  /-- A class or primitive type with type arguments and a number of array dimensions. -/
  | named (name : String) (args : List TypeRef) (dims : Nat)
  deriving Repr, Inhabited

namespace TypeRef

/-! ## Equality -/

mutual

/-- Decides whether two type references are the same. -/
def decEq : (a b : TypeRef) → Decidable (a = b)
  | .void, .void => .isTrue rfl
  | .dynamic, .dynamic => .isTrue rfl
  | .named n as d, .named m bs e =>
    if hn : n = m then
      if hd : d = e then
        match decEqList as bs with
        | .isTrue h => .isTrue (by rw [hn, hd, h])
        | .isFalse h => .isFalse (by intro hab; exact h (TypeRef.named.inj hab).2.1)
      else .isFalse (by intro hab; exact hd (TypeRef.named.inj hab).2.2)
    else .isFalse (by intro hab; exact hn (TypeRef.named.inj hab).1)
  | .void, .dynamic | .void, .named .. | .dynamic, .void | .dynamic, .named ..
  | .named .., .void | .named .., .dynamic => .isFalse nofun

/-- Decides whether two lists of type references are the same. -/
def decEqList : (as bs : List TypeRef) → Decidable (as = bs)
  | [], [] => .isTrue rfl
  | a :: as, b :: bs =>
    match decEq a b, decEqList as bs with
    | .isTrue h, .isTrue hs => .isTrue (by rw [h, hs])
    | .isFalse h, _ => .isFalse (by intro hab; exact h (List.cons.inj hab).1)
    | _, .isFalse hs => .isFalse (by intro hab; exact hs (List.cons.inj hab).2)
  | [], _ :: _ | _ :: _, [] => .isFalse nofun

end

instance : DecidableEq TypeRef := decEq

/-! ## Well-known types -/

/-- The type of texts. -/
def stringName : String := "java.lang.String"

/-- A named type without arguments and dimensions. -/
def simple (name : String) : TypeRef := .named name [] 0

/-- The type of truth values. -/
def boolean : TypeRef := simple Primitive.boolean.text

/-- The type of integers. -/
def int : TypeRef := simple Primitive.int.text

/-- The type of texts. -/
def string : TypeRef := simple stringName

/-- Whether no result is expected. -/
def isVoid : TypeRef → Bool
  | .void => true
  | _ => false

/-- Whether the type is that of texts. -/
def isString : TypeRef → Bool
  | .named name _ dims => name == stringName && dims == 0
  | _ => false

/-- Whether the type is primitive; an array of primitives is not. -/
def isPrimitive : TypeRef → Bool
  | .named name _ dims => dims == 0 && Primitive.isName name
  | _ => false

/-- The type with `dims` more array dimensions. -/
def addDims (dims : Nat) : TypeRef → TypeRef
  | .named name args n => .named name args (n + dims)
  | t => t

/-! ## Renaming -/

mutual

/-- The type with every class name in it, those of arguments included, replaced by `f`. Names of
primitive types stay. -/
def mapNames (f : String → String) : TypeRef → TypeRef
  | .named name args dims =>
    .named (if Primitive.isName name then name else f name) (mapNamesList f args) dims
  | .void => .void
  | .dynamic => .dynamic

/-- `mapNames` on each type of a list. -/
def mapNamesList (f : String → String) : List TypeRef → List TypeRef
  | [] => []
  | t :: ts => mapNames f t :: mapNamesList f ts

end

/-! ## Printing -/

/-- The text of array dimensions. -/
def dimsText : Nat → String
  | 0 => ""
  | dims + 1 => "[]" ++ dimsText dims

mutual

/-- The text of a type. -/
def print : TypeRef → String
  | .void => "void"
  | .dynamic => "Any"
  | .named name [] dims => name ++ dimsText dims
  | .named name args dims =>
    name ++ "<" ++ Text.joinWith ", " (printList args) ++ ">" ++ dimsText dims

/-- The texts of several types. -/
def printList : List TypeRef → List String
  | [] => []
  | t :: ts => print t :: printList ts

end

end TypeRef

end Stencil
