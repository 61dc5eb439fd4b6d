import Stencil.Context.Basic
import Stencil.Proofs.Context.Imports
import Stencil.Proofs.Text.Search
import Mathlib.Data.List.Forall2

/-!
# Explicit and implicit imports

Explicit imports overwrite and implicit ones do not, and a template can have both in any order.

**The law** (`Context.qualify_importAll`): after any sequence of imports, what counts for a simple
name is the last of the explicit imports, or else what was known before, or else the first of the
implicit ones, in whatever order the two kinds were made. Every type is written by this, its arguments
included: the name of a class that is imported, or that is nested in one that is, is written in full,
primitive names stay, and nothing else about the type changes.

`imported?` is what counts for a name, by the two kinds apart; `imported?_cons` lets a step stand in
front of others, which is the induction. How a name is written is told by cases in `QualifiedAs`,
which the function of the program is compared with (`qualifiedAs_iff`), and `TypeRef.Renamed` carries
a relation on names to types. It allows one type only where the relation allows one name
(`renamed_iff`).

**What it does not establish.** An import of a whole package has no simple name and is not looked at.
-/

namespace Stencil

/-! ## A sequence of imports -/

/-- One step of importing classes. -/
inductive ImportStep
  | explicit (qualified : String)
  | implicit (qualified : String)

namespace ImportStep

/-- What the step imports, if it is an explicit one. -/
def explicit? : ImportStep → Option String
  | .explicit qualified => some qualified
  | .implicit _ => none

/-- What the step imports, if it is an implicit one. -/
def implicit? : ImportStep → Option String
  | .explicit _ => none
  | .implicit qualified => some qualified

/-- The last explicit import of the simple name. -/
def lastExplicit? (steps : List ImportStep) (name : String) : Option String :=
  (Imports.named (steps.filterMap explicit?) name).getLast?

/-- The first implicit import of the simple name. -/
def firstImplicit? (steps : List ImportStep) (name : String) : Option String :=
  (Imports.named (steps.filterMap implicit?) name).head?

variable {steps : List ImportStep} {qualified name : String}

/-- An explicit import counts unless a later one has its simple name. -/
theorem lastExplicit?_explicit : lastExplicit? (.explicit qualified :: steps) name =
    (lastExplicit? steps name).or
      (if name = Text.simpleName (Text.trimString qualified) then some (Text.trimString qualified)
      else none) := by
  have hsteps : (ImportStep.explicit qualified :: steps).filterMap explicit? =
      qualified :: steps.filterMap explicit? := rfl
  rw [lastExplicit?, hsteps, Imports.named_cons, lastExplicit?]
  split
  · rw [List.getLast?_cons]
    cases (Imports.named (steps.filterMap explicit?) name).getLast? <;> rfl
  · rw [Option.or_none]

/-- An implicit import counts before the later ones. -/
theorem firstImplicit?_implicit : firstImplicit? (.implicit qualified :: steps) name =
    if name = Text.simpleName (Text.trimString qualified) then some (Text.trimString qualified)
    else firstImplicit? steps name := by
  have hsteps : (ImportStep.implicit qualified :: steps).filterMap implicit? =
      qualified :: steps.filterMap implicit? := rfl
  rw [firstImplicit?, hsteps, Imports.named_cons, firstImplicit?]
  split <;> rfl

end ImportStep

namespace Context

/-- The context after one step. -/
def addStep (ctx : Context) : ImportStep → Context
  | .explicit qualified => ctx.addImport qualified
  | .implicit qualified => ctx.addImplicitImport qualified

/-- The context after a sequence of steps. -/
def importAll (ctx : Context) (steps : List ImportStep) : Context := steps.foldl addStep ctx

/-- What counts for a name after the steps: an explicit import, or what the context knew before, or an
implicit import. -/
def imported? (ctx : Context) (steps : List ImportStep) (name : String) : Option String :=
  (ImportStep.lastExplicit? steps name).or
    ((ctx.imports.names.find? name).or (ImportStep.firstImplicit? steps name))

/-- A step in front of others: an explicit one is known before them, unless they overwrite it, and an
implicit one is known before them if nothing was. -/
theorem imported?_cons (ctx : Context) (step : ImportStep) (steps : List ImportStep) (name : String) :
    ctx.imported? (step :: steps) name = (ctx.addStep step).imported? steps name := by
  cases step with
  | explicit qualified =>
    show (ImportStep.lastExplicit? (.explicit qualified :: steps) name).or
        ((ctx.imports.names.find? name).or (ImportStep.firstImplicit? steps name)) =
      (ImportStep.lastExplicit? steps name).or
        (((ctx.imports.names.insert _ _).find? name).or (ImportStep.firstImplicit? steps name))
    rw [ImportStep.lastExplicit?_explicit, Option.or_assoc, Table.find?_insert]
    split <;> rfl
  | implicit qualified =>
    show (ImportStep.lastExplicit? steps name).or
        ((ctx.imports.names.find? name).or
          (ImportStep.firstImplicit? (.implicit qualified :: steps) name)) =
      (ImportStep.lastExplicit? steps name).or
        (((ctx.imports.names.insertNew _ _).find? name).or (ImportStep.firstImplicit? steps name))
    rw [ImportStep.firstImplicit?_implicit, Table.find?_insertNew]
    split
    · next heq =>
      subst heq
      cases ctx.imports.names.find? _ <;> rfl
    · rfl

/-- What a sequence of imports makes of a simple name. -/
theorem find?_importAll (ctx : Context) (steps : List ImportStep) (name : String) :
    (ctx.importAll steps).imports.names.find? name = ctx.imported? steps name := by
  induction steps generalizing ctx with
  | nil => exact (Option.or_none).symm
  | cons step steps ih => exact (ih (ctx.addStep step)).trans (imported?_cons ctx step steps name).symm

end Context

/-! ## Renaming -/

namespace TypeRef

/-- The one type is the other one with each of its names, those of arguments included, replaced by one
that the relation allows for it. -/
inductive Renamed (r : String → String → Prop) : TypeRef → TypeRef → Prop
  | void : Renamed r .void .void
  | dynamic : Renamed r .dynamic .dynamic
  | named {name name' : String} {args args' : List TypeRef} {dims : Nat} (hname : r name name')
      (hargs : List.Forall₂ (Renamed r) args args') :
      Renamed r (.named name args dims) (.named name' args' dims)

section

variable {r : String → String → Prop} {f : String → String}

mutual

/-- If the relation allows one name only, there is one renamed type. -/
theorem renamed_iff
    (h : ∀ name name', r name name' ↔ name' = if Primitive.isName name then name else f name) :
    ∀ type written, Renamed r type written ↔ written = type.mapNames f
  | .void, written => by
    constructor
    · rintro ⟨⟩
      rfl
    · rintro rfl
      exact .void
  | .dynamic, written => by
    constructor
    · rintro ⟨⟩
      rfl
    · rintro rfl
      exact .dynamic
  | .named name args dims, written => by
    constructor
    · rintro (_ | _ | ⟨hname, hargs⟩)
      rw [(h _ _).1 hname, (renamedList_iff h args _).1 hargs]
      rfl
    · rintro rfl
      exact .named ((h _ _).2 rfl) ((renamedList_iff h args _).2 rfl)

/-- If the relation allows one name only, there is one list of renamed types. -/
theorem renamedList_iff
    (h : ∀ name name', r name name' ↔ name' = if Primitive.isName name then name else f name) :
    ∀ types written, List.Forall₂ (Renamed r) types written ↔ written = mapNamesList f types
  | [], written => List.forall₂_nil_left_iff
  | type :: types, written => by
    rw [List.forall₂_cons_left_iff]
    constructor
    · rintro ⟨_, _, hfirst, hrest, rfl⟩
      rw [(renamed_iff h type _).1 hfirst, (renamedList_iff h types _).1 hrest]
      rfl
    · rintro rfl
      exact ⟨_, _, (renamed_iff h type _).2 rfl, (renamedList_iff h types _).2 rfl, rfl⟩

end

end

end TypeRef

/-! ## Qualified names -/

/-- How a name in a type is written, if `resolve` tells what names stand for: the name of a primitive
type as it is; a name that stands for something as that; a class nested in one whose name stands for
something, as nested in that; and any other name as it is. -/
inductive QualifiedAs (resolve : String → Option String) : String → String → Prop
  | primitive {name : String} (hprim : Primitive.isName name = true) :
      QualifiedAs resolve name name
  | imported {name qualified : String} (hprim : Primitive.isName name = false)
      (hname : resolve name = some qualified) : QualifiedAs resolve name qualified
  | nested {outer inner qualified : String} (hprim : Primitive.isName (outer ++ "." ++ inner) = false)
      (hname : resolve (outer ++ "." ++ inner) = none) (hsimple : '.' ∉ outer.toList)
      (houter : resolve outer = some qualified) :
      QualifiedAs resolve (outer ++ "." ++ inner) (qualified ++ "." ++ inner)
  | other {name : String} (hprim : Primitive.isName name = false) (hname : resolve name = none)
      (hnested : ∀ outer inner, name = outer ++ "." ++ inner → '.' ∉ outer.toList →
        resolve outer = none) :
      QualifiedAs resolve name name

namespace Imports

variable {name written outer inner : String}

/-- A name is cut at its first full stop. -/
theorem cutAtChar_dot : Text.cutAtChar '.' name.toList = some (outer.toList, inner.toList) ↔
    name = outer ++ "." ++ inner ∧ '.' ∉ outer.toList := by
  rw [Text.cutAtChar_eq_some, ← String.toList_inj, String.toList_append, String.toList_append,
    List.append_assoc]
  rfl

/-- A name without a full stop is not cut. -/
theorem cutAtChar_dot_eq_none (h : Text.cutAtChar '.' name.toList = none) :
    name ≠ outer ++ "." ++ inner ∨ '.' ∈ outer.toList := by
  by_contra hcut
  rw [not_or, not_not] at hcut
  rw [cutAtChar_dot.2 hcut] at h
  exact Option.some_ne_none _ h

/-- A name that is imported is written as the import. -/
theorem qualifyClass_of_find? {imports : Imports} {qualified : String}
    (h : imports.names.find? name = some qualified) : imports.qualifyClass name = qualified := by
  rw [qualifyClass, h]

/-- A nested name is written by the import of what it is nested in. -/
theorem qualifyClass_nested {imports : Imports}
    (h : imports.names.find? (outer ++ "." ++ inner) = none) (hsimple : '.' ∉ outer.toList) :
    imports.qualifyClass (outer ++ "." ++ inner) =
      ((imports.names.find? outer).map (· ++ "." ++ inner)).getD (outer ++ "." ++ inner) := by
  rw [qualifyClass, h, cutAtChar_dot.2 ⟨rfl, hsimple⟩]
  dsimp only [Option.bind_eq_bind, Option.bind_some]
  rw [String.ofList_toList, String.ofList_toList]
  cases imports.names.find? outer <;> rfl

/-- A simple name is written as its import, or as it is. -/
theorem qualifyClass_of_cutAtChar {imports : Imports} (hcut : Text.cutAtChar '.' name.toList = none) :
    imports.qualifyClass name = (imports.names.find? name).getD name := by
  rw [qualifyClass, hcut]
  cases imports.names.find? name <;> rfl

/-- The cases tell how a name is written, and there is one for each name. -/
theorem qualifiedAs_iff (imports : Imports) (name written : String) :
    QualifiedAs imports.names.find? name written ↔
      written = if Primitive.isName name then name else imports.qualifyClass name := by
  constructor
  · rintro (hprim | ⟨hprim, hname⟩ | ⟨hprim, hname, hsimple, houter⟩ | ⟨hprim, hname, hnested⟩)
    · rw [if_pos hprim]
    · rw [hprim, if_neg Bool.false_ne_true, qualifyClass_of_find? hname]
    · rw [hprim, if_neg Bool.false_ne_true, qualifyClass_nested hname hsimple, houter]
      rfl
    · rw [hprim, if_neg Bool.false_ne_true]
      cases hcut : Text.cutAtChar '.' name.toList with
      | none => rw [qualifyClass_of_cutAtChar hcut, hname]; rfl
      | some cut =>
        obtain ⟨outer, inner⟩ := cut
        rw [← String.toList_ofList (l := outer), ← String.toList_ofList (l := inner),
          cutAtChar_dot] at hcut
        obtain ⟨rfl, hsimple⟩ := hcut
        rw [qualifyClass_nested hname hsimple, hnested _ _ rfl hsimple]
        rfl
  · rintro rfl
    -- The cases of the relation are told apart in the order in which the imports are asked.
    cases hprim : Primitive.isName name with
    | true => exact .primitive hprim
    | false =>
      rw [if_neg Bool.false_ne_true]
      cases hname : imports.names.find? name with
      | some qualified =>
        rw [qualifyClass_of_find? hname]
        exact .imported hprim hname
      | none =>
        cases hcut : Text.cutAtChar '.' name.toList with
        | none =>
          rw [qualifyClass_of_cutAtChar hcut, hname]
          refine .other hprim hname ?_
          intro outer inner heq hsimple
          rcases cutAtChar_dot_eq_none hcut with hne | hmem
          · exact absurd heq hne
          · exact absurd hmem hsimple
        | some cut =>
          obtain ⟨outer, inner⟩ := cut
          rw [← String.toList_ofList (l := outer), ← String.toList_ofList (l := inner)] at hcut
          obtain ⟨rfl, hsimple⟩ := cutAtChar_dot.1 hcut
          rw [qualifyClass_nested hname hsimple]
          cases houter : imports.names.find? (String.ofList outer) with
          | some qualified => exact .nested hprim hname hsimple houter
          | none =>
            refine .other hprim hname ?_
            intro outer' inner' heq hsimple'
            have hsame := hcut.symm.trans (cutAtChar_dot.2 ⟨heq, hsimple'⟩)
            rw [Option.some.injEq, Prod.mk.injEq, String.toList_inj] at hsame
            rw [← hsame.1, houter]

end Imports

/-- After explicit and implicit imports in any order, a simple name of a class stands for the last
explicit import of it, or else for what the context knew before, or else for the first implicit import of
it. A type is written with its names, at any depth, qualified by that, and with nothing else changed. -/
theorem Context.qualify_importAll (ctx : Context) (steps : List ImportStep) :
    let after := ctx.importAll steps
    let resolve name := (ImportStep.lastExplicit? steps name).or
      ((ctx.imports.names.find? name).or (ImportStep.firstImplicit? steps name))
    (∀ name, '.' ∉ name.toList → after.imports.qualifyClass name = (resolve name).getD name) ∧
      ∀ type written, written = after.qualify type ↔ type.Renamed (QualifiedAs resolve) written := by
  intro after resolve
  have hresolve : after.imports.names.find? = resolve := funext (find?_importAll ctx steps)
  constructor
  · intro name hsimple
    have hcut : Text.cutAtChar '.' name.toList = none := by
      rw [Text.cutAtChar, Text.cutAt_eq_none (List.cons_ne_nil _ _), List.singleton_infix_iff]
      exact hsimple
    rw [Imports.qualifyClass_of_cutAtChar hcut, hresolve]
  · intro type written
    rw [← hresolve]
    exact (TypeRef.renamed_iff (Imports.qualifiedAs_iff after.imports) type written).symm

/-- Three classes that are called List, the second of which is imported explicitly, and a class that is
known before. -/
theorem Context.qualify_importAll_mixed :
    let ctx : Context := Context.addImport {} "com.example.Todo"
    let steps : List ImportStep := [.implicit "java.util.List", .explicit " com.example.List ",
      .implicit "java.awt.List", .implicit "java.util.Todo", .implicit "java.util.Map"]
    let type : TypeRef := .named "Map" [.named "Todo.Status" [] 1, .simple "Other",
      .named "List" [.simple "int"] 0] 2
    '.' ∉ "List".toList ∧
      (ctx.importAll steps).imports.qualifyClass "List" = "com.example.List" ∧
      (ctx.importAll steps).qualify type = .named "java.util.Map"
        [.named "com.example.Todo.Status" [] 1, .simple "Other",
          .named "com.example.List" [.simple "int"] 0] 2 := by
  intro ctx steps type
  have hsimple : '.' ∉ "List".toList := by decide
  obtain ⟨hclass, -⟩ := Context.qualify_importAll ctx steps
  exact ⟨hsimple, (hclass "List" hsimple).trans (by decide +kernel), by decide +kernel⟩

end Stencil
