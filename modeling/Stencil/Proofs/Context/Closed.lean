import Stencil.Output.Compiled
import Stencil.Proofs.Basic
import Stencil.Proofs.Context.Imports
import Stencil.Proofs.Context.PassThrough
import Stencil.Proofs.Expr.Part

/-!
# Accepted expressions are closed

**The law** (`Context.resolve_closed`): an expression resolves without a problem exactly if all that
it names is known (`Knows`): what it calls without a scope, each other bare name, and the event
parameter, which needs a cast directly in front of it. Generated code then receives the variables that
it cannot reach by itself, each once, in the order of first use and with the type of the first use,
and nothing else (`Closes`). So no bare name of what is recorded stands for anything but a parameter,
a member of the component or a class.

A bare name stands for one of four things (`Context.referent`), and each is asked for its parameter
and its problem: `problem?_referent_eq_none`, `map_name_parameter?`. What a resolution says is what
the uses of its names say, in their order (`parameters_resolve`, `problems_resolve`). The names are
qualified on the way, which changes the types of casts but not which names there are
(`bareNames_qualified`).

**What it does not establish.** A name may be known in two ways at once, as a class and as a variable;
which counts is what `Context.referent` says, and `Knows` asks only for one.
-/

namespace Stencil

open Token (IsName)

/-! ## What is known -/

/-- A name is known if it is imported, as a simple name or as a qualified one. -/
theorem Imports.knows_iff {imports : Imports} {n : String} :
    imports.knows n = true ↔ n ∈ imports.names.keys ∨ n ∈ imports.names.values := by
  rw [Imports.knows, Bool.or_eq_true, Table.contains_iff, List.contains_iff_mem]

/-- A component has a method if one of its levels has it. -/
theorem Component.hasMethod_iff {c : Component} {n : String} :
    c.hasMethod n = true ↔ ∃ m ∈ c.levels, n ∈ m.methods := by
  simp only [hasMethod, List.any_eq_true, List.contains_iff_mem]

/-- A scope finds a name if one of its variables has it. -/
theorem Scope.find?_isSome {scope : Scope} {n : String} :
    (scope.find? n).isSome = true ↔ ∃ v ∈ scope, v.name = n := by
  simp only [Scope.find?, List.find?_isSome, beq_iff_eq]

/-- What a scope finds has the name. -/
theorem Scope.name_of_find? {scope : Scope} {n : String} {v : Variable}
    (h : scope.find? n = some v) : v.name = n := by
  have hv := List.find?_some h
  simpa using hv

namespace Context

variable {ctx : Context} {event n : String} {v : Variable} {use : Expr.BareName}

/-- A name stands for something if a scope or a level of the component has it. -/
theorem find?_isSome : (ctx.find? n).isSome = true ↔
    (∃ scope ∈ ctx.scopes, ∃ v ∈ scope, v.name = n) ∨
      (∃ m ∈ ctx.component.levels, n ∈ m.properties.keys) ∨
      ∃ m ∈ ctx.component.levels, n ∈ m.methods := by
  have hscopes : (ctx.scopes.findSome? (·.find? n)).isSome = true ↔
      ∃ scope ∈ ctx.scopes, ∃ v ∈ scope, v.name = n := by
    simp only [List.findSome?_isSome_iff, Scope.find?_isSome]
  have hproperties : (ctx.component.property? n).isSome = true ↔
      ∃ m ∈ ctx.component.levels, n ∈ m.properties.keys := by
    simp only [Component.property?, List.findSome?_isSome_iff, ← Table.contains_iff, Table.contains]
  rw [← hscopes, ← hproperties, ← Component.hasMethod_iff]
  unfold find?
  cases ctx.scopes.findSome? (·.find? n) with
  | some v => simp
  | none =>
    cases ctx.component.property? n with
    | some type => simp
    | none => cases ctx.component.hasMethod n <;> simp

/-- What is found by a name has the name. -/
theorem name_of_find? (h : ctx.find? n = some v) : v.name = n := by
  unfold find? at h
  split at h
  · next found hfound =>
    obtain ⟨scope, -, hv⟩ := List.exists_of_findSome?_eq_some hfound
    obtain rfl := Option.some.inj h
    exact Scope.name_of_find? hv
  · split at h
    · obtain rfl := Option.some.inj h
      rfl
    · split at h
      · obtain rfl := Option.some.inj h
        rfl
      · cases h

/-- The name of a class that is imported is written as an imported qualified name. -/
theorem qualifyClass_mem (hname : IsName n) (h : ctx.imports.knows n = true) :
    ctx.imports.qualifyClass n ∈ ctx.imports.names.values := by
  unfold Imports.qualifyClass
  cases hfind : ctx.imports.names.find? n with
  | some qualified =>
    obtain ⟨front, back, hentries, -⟩ := List.lookup_eq_some_iff.1 hfind
    exact List.mem_map.2 ⟨(n, qualified), by simp [hentries], rfl⟩
  | none =>
    rcases Imports.knows_iff.1 h with hkey | hvalue
    · rw [← Table.contains_iff, Table.contains, hfind] at hkey
      cases hkey
    · simpa [cutAtChar_of_isName hname] using hvalue

/-! ## What a name stands for -/

/-- The variable that is passed for a name. -/
def Referent.parameter? : Referent → Option Variable
  | .parameter v => some v
  | .classRef _ | .member _ | .unresolved _ => none

/-- What is wrong with a name. -/
def Referent.problem? : Referent → Option ResolutionProblem
  | .unresolved problem => some problem
  | .classRef _ | .member _ | .parameter _ => none

/-- Whether generated code must receive what the name stands for. -/
def captures (ctx : Context) (event n : String) : Bool :=
  n == event || (!ctx.imports.knows n && (ctx.find? n).any (·.isCaptured))

/-- A call without a scope has no problem if it is a method or an imported static member. -/
theorem callProblem?_eq_none : ctx.callProblem? n = none ↔
    ctx.component.hasMethod n = true ∨ ctx.staticImports.knows n = true := by
  unfold callProblem?
  split
  · next h => simpa using h
  · next h => simpa using h

/-- A use of a name has no problem if the event parameter is cast, and another name is known. -/
theorem problem?_referent_eq_none : (ctx.referent event use).problem? = none ↔
    (use.name = event → use.castTo.isSome = true) ∧
      (use.name ≠ event → ctx.imports.knows use.name = true ∨ (ctx.find? use.name).isSome = true) := by
  unfold referent
  by_cases hevent : use.name = event
  · rw [if_pos hevent]
    cases use.castTo <;> simp [Referent.problem?, hevent]
  · rw [if_neg hevent]
    by_cases hknows : ctx.imports.knows use.name = true
    · simp [Referent.problem?, hevent, hknows]
    · rw [if_neg hknows]
      cases ctx.find? use.name with
      | none => simp [Referent.problem?, hevent, hknows]
      | some v => cases hv : v.isCaptured <;> simp [Referent.problem?, hevent, hv]

/-- The event parameter is passed as what it is cast to. -/
theorem parameter?_referent_event (castTo : Option TypeRef) :
    (ctx.referent event ⟨event, castTo⟩).parameter? =
      castTo.map fun type => ⟨event, type, .eventParameter⟩ := by
  unfold referent
  rw [if_pos rfl]
  cases castTo <;> rfl

/-- Of the other names, variables are passed that no class hides. -/
theorem parameter?_referent_of_ne (h : use.name ≠ event) :
    (ctx.referent event use).parameter? =
      if ctx.imports.knows use.name then none else (ctx.find? use.name).filter (·.isCaptured) := by
  unfold referent
  rw [if_neg h]
  by_cases hknows : ctx.imports.knows use.name = true
  · rw [if_pos hknows, if_pos hknows]
    rfl
  · rw [if_neg hknows, if_neg hknows]
    cases ctx.find? use.name with
    | none => rfl
    | some v => cases hv : v.isCaptured <;> simp [Referent.parameter?, Option.filter, hv]

/-- What is passed for a name has the name. -/
theorem name_of_parameter? (h : (ctx.referent event use).parameter? = some v) :
    v.name = use.name := by
  by_cases hevent : use.name = event
  · obtain ⟨n, castTo⟩ := use
    obtain rfl : n = event := hevent
    rw [parameter?_referent_event] at h
    obtain ⟨type, -, rfl⟩ := Option.map_eq_some_iff.1 h
    rfl
  · rw [parameter?_referent_of_ne hevent] at h
    split at h
    · cases h
    · exact name_of_find? (Option.filter_eq_some_iff.1 h).1

/-- A name without a problem is passed if and only if it is to be. -/
theorem map_name_parameter? (h : (ctx.referent event use).problem? = none) :
    (ctx.referent event use).parameter?.map (·.name) =
      if ctx.captures event use.name then some use.name else none := by
  obtain ⟨hcast, -⟩ := problem?_referent_eq_none.1 h
  by_cases hevent : use.name = event
  · obtain ⟨n, castTo⟩ := use
    obtain rfl : n = event := hevent
    obtain ⟨type, htype⟩ := Option.isSome_iff_exists.1 (hcast rfl)
    obtain rfl : castTo = some type := htype
    rw [parameter?_referent_event]
    simp [captures]
  · rw [parameter?_referent_of_ne hevent]
    by_cases hknows : ctx.imports.knows use.name = true
    · simp [captures, hevent, hknows]
    · cases hfind : ctx.find? use.name with
      | none => simp [captures, hevent, hknows, hfind]
      | some v =>
        have hname := name_of_find? hfind
        cases hv : v.isCaptured <;> simp [captures, hevent, hknows, hfind, hv, hname]

/-! ## What a resolution says -/

variable {e : Expr} {takesCast : Bool}

/-- What a use of a name stands for, the types in the expression being qualified. -/
def referentOf (ctx : Context) (event : String) (use : Expr.BareName) : Referent :=
  ctx.referent event ⟨use.name, use.castTo.map ctx.qualify⟩

/-- What is passed for a use of a name has the name. -/
theorem name_of_referentOf {v : Variable} (h : (ctx.referentOf event use).parameter? = some v) :
    v.name = use.name := by
  have hname := name_of_parameter? h
  exact hname

/-- What is passed for a name that is not the event parameter. -/
theorem parameter?_referentOf_of_ne (h : use.name ≠ event) :
    (ctx.referentOf event use).parameter? =
      if ctx.imports.knows use.name then none else (ctx.find? use.name).filter (·.isCaptured) :=
  parameter?_referent_of_ne h

/-- The uses of names, with their casts qualified, stand for the same. -/
theorem bareNames_qualified (ctx : Context) (event : String) (e : Expr) :
    ((e.rename ctx.qualify id id).bareNames none).map (ctx.referent event) =
      (e.bareNames none).map (ctx.referentOf event) := by
  have hnames := e.bareNames_rename ctx.qualify id id none
  rw [Option.map_none] at hnames
  rw [hnames, List.map_map]
  rfl

/-- A resolution passes what its uses of names pass. -/
theorem parameters_resolve (ctx : Context) (event : String) (takesCast : Bool) (e : Expr) :
    (ctx.resolve event takesCast e).parameters =
      (e.bareNames none).filterMap fun use => (ctx.referentOf event use).parameter? := by
  show List.filterMap _ (((e.rename ctx.qualify id id).bareNames none).map (ctx.referent event)) = _
  rw [bareNames_qualified, List.filterMap_map]
  refine List.filterMap_congr fun use _ => ?_
  rw [Function.comp_apply]
  cases ctx.referentOf event use <;> rfl

/-- The problems of a resolution are those of its calls and those of its names. -/
theorem problems_resolve (ctx : Context) (event : String) (takesCast : Bool) (e : Expr) :
    (ctx.resolve event takesCast e).problems = e.unscopedCalls.filterMap ctx.callProblem? ++
      (e.bareNames none).filterMap fun use => (ctx.referentOf event use).problem? := by
  show _ ++ List.filterMap _
    (((e.rename ctx.qualify id id).bareNames none).map (ctx.referent event)) = _
  rw [bareNames_qualified, List.filterMap_map]
  refine congrArg _ (List.filterMap_congr fun use _ => ?_)
  rw [Function.comp_apply]
  cases ctx.referentOf event use <;> rfl

/-- The names of the resolved expression are written as the context says. -/
theorem names_resolve (ctx : Context) (event : String) (takesCast : Bool) (e : Expr) :
    (ctx.resolve event takesCast e).expression.names = e.names.map (ctx.writtenName event) := by
  cases takesCast with
  | false => exact e.names_rename ctx.qualify (ctx.writtenName event) ctx.callName
  | true =>
    rw [← e.names_rename ctx.qualify (ctx.writtenName event) ctx.callName]
    exact Expr.names_takeLeadingCast _

/-! ## When there is no problem -/

/-- All that the expression names is known. -/
structure Knows (ctx : Context) (event : String) (e : Expr) : Prop where
  /-- What is called without a scope is a method of the component or a static import. -/
  calls : ∀ outer? span n args, e.PartOf outer? (.call span n args) →
    (∃ m ∈ ctx.component.levels, n ∈ m.methods) ∨
      n ∈ ctx.staticImports.names.keys ∨ n ∈ ctx.staticImports.names.values
  /-- The event parameter stands directly inside of a cast. -/
  casts : ∀ outer? span, e.PartOf outer? (.name span event) →
    ∃ span type operand, outer? = some (.cast span type operand)
  /-- Any other bare name is an import, or a variable or member. -/
  names : ∀ outer? span n, e.PartOf outer? (.name span n) → n ≠ event →
    (n ∈ ctx.imports.names.keys ∨ n ∈ ctx.imports.names.values) ∨
      (∃ scope ∈ ctx.scopes, ∃ v ∈ scope, v.name = n) ∨
      (∃ m ∈ ctx.component.levels, n ∈ m.properties.keys) ∨
      ∃ m ∈ ctx.component.levels, n ∈ m.methods

/-- There is no problem if no call and no use of a name has one. -/
theorem problems_eq_nil_iff_uses : (ctx.resolve event takesCast e).problems = [] ↔
    (∀ n ∈ e.unscopedCalls, ctx.callProblem? n = none) ∧
      ∀ use ∈ e.bareNames none, (ctx.referentOf event use).problem? = none := by
  rw [problems_resolve, List.append_eq_nil_iff, List.filterMap_eq_nil_iff,
    List.filterMap_eq_nil_iff]

/-- The expressions that are a cast. -/
theorem castType?_eq_some {outer : Expr} {type : TypeRef} (h : outer.castType? = some type) :
    ∃ span operand, outer = .cast span type operand := by
  cases outer with
  | cast span type' operand =>
    obtain rfl := Option.some.inj h
    exact ⟨span, operand, rfl⟩
  | _ => cases h

/-- A resolution has no problem if and only if all that the expression names is known. -/
theorem problems_eq_nil_iff :
    (ctx.resolve event takesCast e).problems = [] ↔ ctx.Knows event e := by
  have hcalls (n : String) : ctx.callProblem? n = none ↔
      (∃ m ∈ ctx.component.levels, n ∈ m.methods) ∨
        n ∈ ctx.staticImports.names.keys ∨ n ∈ ctx.staticImports.names.values := by
    rw [callProblem?_eq_none, Component.hasMethod_iff, Imports.knows_iff]
  have huses (use : Expr.BareName) : (ctx.referentOf event use).problem? = none ↔
      (use.name = event → use.castTo.isSome = true) ∧ (use.name ≠ event →
        (use.name ∈ ctx.imports.names.keys ∨ use.name ∈ ctx.imports.names.values) ∨
          (∃ scope ∈ ctx.scopes, ∃ v ∈ scope, v.name = use.name) ∨
          (∃ m ∈ ctx.component.levels, use.name ∈ m.properties.keys) ∨
          ∃ m ∈ ctx.component.levels, use.name ∈ m.methods) := by
    rw [referentOf, problem?_referent_eq_none, Option.isSome_map, Imports.knows_iff, find?_isSome]
  rw [problems_eq_nil_iff_uses]
  constructor
  · rintro ⟨hknown, hresolved⟩
    refine ⟨?_, ?_, ?_⟩
    · intro outer? span n args hpart
      exact (hcalls n).1 (hknown n (Expr.mem_unscopedCalls.2 ⟨outer?, span, args, hpart⟩))
    · intro outer? span hpart
      have huse := hresolved ⟨event, (outer?.map Expr.castType?).getD none⟩
        (Expr.mem_bareNames.2 ⟨outer?, span, hpart, rfl⟩)
      have hcast := ((huses _).1 huse).1 rfl
      cases outer? with
      | none => cases hcast
      | some outer =>
        obtain ⟨type, htype⟩ := Option.isSome_iff_exists.1 hcast
        obtain ⟨span, operand, rfl⟩ := castType?_eq_some htype
        exact ⟨span, type, operand, rfl⟩
    · intro outer? span n hpart hne
      have huse := hresolved ⟨n, (outer?.map Expr.castType?).getD none⟩
        (Expr.mem_bareNames.2 ⟨outer?, span, hpart, rfl⟩)
      exact ((huses _).1 huse).2 hne
  · intro h
    refine ⟨fun n hn => ?_, fun use huse => ?_⟩
    · obtain ⟨outer?, span, args, hpart⟩ := Expr.mem_unscopedCalls.1 hn
      exact (hcalls n).2 (h.calls outer? span n args hpart)
    · obtain ⟨outer?, span, hpart, hcast⟩ := Expr.mem_bareNames.1 huse
      refine (huses use).2 ⟨fun hevent => ?_, h.names outer? span use.name hpart⟩
      obtain ⟨span', type, operand, rfl⟩ := h.casts outer? span (hevent ▸ hpart)
      rw [hcast]
      rfl

/-! ## The parameters -/

end Context

namespace Parameter

/-- There is one parameter for each name, in the order in which the names come first. -/
theorem map_name_ofVariables (vs : List Variable) :
    (ofVariables vs).map (·.name) = (vs.map (·.name)).eraseDups := by
  induction vs with
  | nil => rfl
  | cons v vs ih =>
    rw [ofVariables, List.map_cons, List.map_cons, List.eraseDups_cons, eraseDups_filter, ← ih,
      List.filter_map]
    rfl

/-- The first variable of a name gives the type. -/
theorem mem_ofVariables {vs : List Variable} {p : Parameter} :
    p ∈ ofVariables vs ↔ (vs.find? fun v => v.name == p.name).map (·.type) = some p.type := by
  induction vs with
  | nil => simp [ofVariables]
  | cons v vs ih =>
    obtain ⟨n, type⟩ := p
    rw [ofVariables, List.mem_cons, List.mem_filter, ih]
    by_cases hn : v.name = n
    · rw [List.find?_cons_of_pos (by simpa using hn)]
      simp [hn, eq_comm]
    · rw [List.find?_cons_of_neg (by simpa using hn)]
      simp [Ne.symm hn]

end Parameter

namespace Context

variable {ctx : Context} {event : String} {e : Expr}

/-- The variables that a resolution passes for the event parameter, in their order, have the types
that the parameter is cast to. -/
theorem types_of_event (ctx : Context) (event : String) (takesCast : Bool) (e : Expr) :
    ((ctx.resolve event takesCast e).parameters.filter fun v => v.name == event).map (·.type) =
      (e.castsOf event).map ctx.qualify := by
  rw [parameters_resolve, Expr.castsOf_eq_filterMap, List.filter_filterMap, List.map_filterMap,
    List.map_filterMap]
  refine List.filterMap_congr fun use _ => ?_
  by_cases hevent : use.name = event
  · obtain ⟨n, castTo⟩ := use
    obtain rfl : n = event := hevent
    rw [referentOf, parameter?_referent_event]
    cases castTo <;> simp [Option.filter]
  · rw [if_neg hevent]
    cases hv : (ctx.referentOf event use).parameter? with
    | none => rfl
    | some v =>
      have hname := name_of_referentOf hv
      simp [Option.filter, hname, hevent]

/-- What is passed is the event parameter, as what it is cast to, and the variables that are to be
captured and that no class hides. -/
theorem mem_parameters {takesCast : Bool} {v : Variable} :
    v ∈ (ctx.resolve event takesCast e).parameters ↔
      (∃ type, ⟨event, some type⟩ ∈ e.bareNames none ∧
        v = ⟨event, ctx.qualify type, .eventParameter⟩) ∨
      v.name ∈ e.names ∧ v.name ≠ event ∧ ctx.imports.knows v.name = false ∧
        ctx.find? v.name = some v ∧ v.isCaptured = true := by
  rw [parameters_resolve, List.mem_filterMap, ← e.map_name_bareNames none]
  constructor
  · rintro ⟨use, huse, hv⟩
    have hname := name_of_referentOf hv
    by_cases hevent : use.name = event
    · obtain ⟨n, castTo⟩ := use
      obtain rfl : n = event := hevent
      rw [referentOf, parameter?_referent_event, Option.map_map] at hv
      obtain ⟨type, rfl, rfl⟩ := Option.map_eq_some_iff.1 hv
      exact .inl ⟨type, huse, rfl⟩
    · rw [parameter?_referentOf_of_ne hevent] at hv
      split at hv
      · cases hv
      · next hknows =>
        obtain ⟨hfind, hcaptured⟩ := Option.filter_eq_some_iff.1 hv
        rw [hname]
        exact .inr ⟨List.mem_map_of_mem huse, hevent, by simpa using hknows, hfind, hcaptured⟩
  · rintro (⟨type, huse, rfl⟩ | ⟨hmem, hne, hknows, hfind, hcaptured⟩)
    · refine ⟨_, huse, ?_⟩
      rw [referentOf, parameter?_referent_event]
      rfl
    · obtain ⟨use, huse, hname⟩ := List.mem_map.1 hmem
      refine ⟨use, huse, ?_⟩
      rw [← hname] at hne hknows hfind
      rw [parameter?_referentOf_of_ne hne, hknows, hfind]
      simp [Option.filter, hcaptured]

/-- Without problems, the event parameter is passed wherever it is named. -/
theorem event_mem_parameters {takesCast : Bool}
    (h : (ctx.resolve event takesCast e).problems = []) (hevent : event ∈ e.names) :
    ∃ type, ⟨event, type, .eventParameter⟩ ∈ (ctx.resolve event takesCast e).parameters := by
  obtain ⟨-, hresolved⟩ := problems_eq_nil_iff_uses.1 h
  rw [← e.map_name_bareNames none] at hevent
  obtain ⟨⟨n, castTo⟩, huse, hname⟩ := List.mem_map.1 hevent
  obtain rfl : n = event := hname
  obtain ⟨hcast, -⟩ := problem?_referent_eq_none.1 (hresolved _ huse)
  obtain ⟨type, htype⟩ := Option.isSome_iff_exists.1 (hcast rfl)
  obtain ⟨written, rfl, -⟩ := Option.map_eq_some_iff.1 htype
  exact ⟨_, mem_parameters.2 (.inl ⟨written, huse, rfl⟩)⟩

/-- Without problems, the names of what is passed are the names of what is to be passed. -/
theorem names_of_parameters {takesCast : Bool}
    (h : (ctx.resolve event takesCast e).problems = []) :
    (ctx.resolve event takesCast e).parameters.map (·.name) =
      e.names.filter (ctx.captures event) := by
  obtain ⟨-, hresolved⟩ := problems_eq_nil_iff_uses.1 h
  rw [parameters_resolve, List.map_filterMap, ← e.map_name_bareNames none, List.filter_map,
    ← List.filterMap_eq_filter, List.map_filterMap]
  refine List.filterMap_congr fun use huse => ?_
  rw [referentOf, map_name_parameter? (hresolved use huse)]
  by_cases hcaptures : ctx.captures event use.name = true <;> simp [Option.guard, hcaptures]

/-- The expression has exactly the parameters that it needs, and is closed under them. -/
structure Closes (ctx : Context) (event : String) (e : Expr) (r : Resolution) : Prop where
  /-- Each name that is to be passed has one parameter, in the order in which the names come. -/
  parameters : (Parameter.ofVariables r.parameters).map (·.name) =
    (e.names.filter (ctx.captures event)).eraseDups
  /-- The event parameter has the type of its first cast. -/
  eventType : ∀ p ∈ Parameter.ofVariables r.parameters, p.name = event →
    (e.castsOf event).head?.map ctx.qualify = some p.type
  /-- Any other parameter has the type of its variable. -/
  otherTypes : ∀ p ∈ Parameter.ofVariables r.parameters, p.name ≠ event →
    ∃ v, ctx.find? p.name = some v ∧ v.isCaptured = true ∧ v.type = p.type
  /-- A bare name of what is recorded is a parameter, a member of the component, or a class. -/
  names : ∀ n ∈ r.expression.names,
    (∃ p ∈ Parameter.ofVariables r.parameters, p.name = n) ∨
      (∃ v, ctx.find? n = some v ∧ (v.origin = .property ∨ v.origin = .method)) ∨
      n ∈ ctx.imports.names.values

end Context

/-! ## Closed expressions -/

namespace Context

variable {ctx : Context} {event : String} {e : Expr}

/-- The event parameter is written as it is. -/
theorem writtenName_event (ctx : Context) (event : String) :
    ctx.writtenName event event = event := by
  simp [writtenName, referent]

/-- Without problems, what is to be captured is a parameter. -/
theorem mem_parameters_of_captures {takesCast : Bool} {n : String}
    (hproblems : (ctx.resolve event takesCast e).problems = []) (hn : n ∈ e.names)
    (hcaptures : ctx.captures event n = true) :
    ∃ p ∈ Parameter.ofVariables (ctx.resolve event takesCast e).parameters, p.name = n := by
  have hmem : n ∈ (Parameter.ofVariables (ctx.resolve event takesCast e).parameters).map (·.name) := by
    rw [Parameter.map_name_ofVariables, names_of_parameters hproblems, List.mem_eraseDups]
    exact List.mem_filter.2 ⟨hn, hcaptures⟩
  exact List.mem_map.1 hmem

/-- What is written for a name that stands for something is a parameter, a member or a class. -/
theorem closed_writtenName {takesCast : Bool} {n : String}
    (hproblems : (ctx.resolve event takesCast e).problems = []) (hn : n ∈ e.names)
    (hname : IsName n) :
    (∃ p ∈ Parameter.ofVariables (ctx.resolve event takesCast e).parameters,
        p.name = ctx.writtenName event n) ∨
      (∃ v, ctx.find? (ctx.writtenName event n) = some v ∧
        (v.origin = .property ∨ v.origin = .method)) ∨
      ctx.writtenName event n ∈ ctx.imports.names.values := by
  -- The three ways in which a name is written: as the event parameter, as a class, or as it stands.
  by_cases hevent : n = event
  · subst hevent
    rw [writtenName_event]
    exact .inl (mem_parameters_of_captures hproblems hn (by simp [captures]))
  · by_cases hknows : ctx.imports.knows n = true
    · have hwritten : ctx.writtenName event n = ctx.imports.qualifyClass n := by
        simp [writtenName, referent, hevent, hknows]
      rw [hwritten]
      exact .inr (.inr (qualifyClass_mem hname hknows))
    · have hwritten : ctx.writtenName event n = n := by
        unfold writtenName referent
        rw [if_neg hevent, if_neg hknows]
        cases ctx.find? n with
        | none => rfl
        | some v => cases hv : v.isCaptured <;> simp [hv]
      rw [hwritten]
      obtain ⟨outer?, span, hpart⟩ := Expr.mem_names.1 hn
      have hfound : (ctx.find? n).isSome = true := by
        rw [find?_isSome]
        rcases (problems_eq_nil_iff.1 hproblems).names outer? span n hpart hevent with himport | h
        · exact absurd (Imports.knows_iff.2 himport) hknows
        · exact h
      obtain ⟨v, hv⟩ := Option.isSome_iff_exists.1 hfound
      by_cases hcaptured : v.isCaptured = true
      · refine .inl (mem_parameters_of_captures hproblems hn ?_)
        simp [captures, hknows, hv, hcaptured]
      · refine .inr (.inl ⟨v, hv, ?_⟩)
        unfold Variable.isCaptured at hcaptured
        cases horigin : v.origin <;> simp [horigin] at hcaptured ⊢

/-- Without problems, the resolution closes the expression. -/
theorem closes_of_problems {text : String} {takesCast : Bool} (hparse : Expr.parse text = .ok e)
    (hproblems : (ctx.resolve event takesCast e).problems = []) :
    ctx.Closes event e (ctx.resolve event takesCast e) := by
  refine ⟨?_, ?_, ?_, ?_⟩
  · rw [Parameter.map_name_ofVariables, names_of_parameters hproblems]
  · intro p hp hevent
    subst hevent
    rw [← List.head?_map, ← types_of_event ctx p.name takesCast e, List.head?_map,
      List.head?_filter]
    exact Parameter.mem_ofVariables.1 hp
  · intro p hp hne
    obtain ⟨v, hv, htype⟩ := Option.map_eq_some_iff.1 (Parameter.mem_ofVariables.1 hp)
    have hname : v.name = p.name := by simpa using List.find?_some hv
    rcases mem_parameters.1 (List.mem_of_find?_eq_some hv) with ⟨type, -, rfl⟩ | h
    · exact absurd hname.symm hne
    · obtain ⟨-, -, -, hfind, hcaptured⟩ := h
      exact ⟨v, hname ▸ hfind, hcaptured, htype⟩
  · intro n hn
    rw [names_resolve] at hn
    obtain ⟨m, hm, rfl⟩ := List.mem_map.1 hn
    exact closed_writtenName hproblems hm (Expr.isName_of_mem_names hparse hm)

/-- Accepted expressions are closed. An expression that was read resolves without a problem if and
only if all that it names is known; and then it has exactly the parameters that it needs, in the order
in which their names first stand in the text. -/
theorem resolve_closed {text : String} (h : Expr.parse text = .ok e) (ctx : Context)
    (event : String) (takesCast : Bool) :
    ((ctx.resolve event takesCast e).problems = [] ↔ ctx.Knows event e) ∧
      (ctx.Knows event e → ctx.Closes event e (ctx.resolve event takesCast e)) ∧
      ∃ tokens, Token.readAll text = .ok tokens ∧ e.names = e.occurrences.map (·.2) ∧
        e.occurrences.Sublist (tokens.filterMap (·.occurrence?)) := by
  refine ⟨problems_eq_nil_iff, fun hknows => closes_of_problems h (problems_eq_nil_iff.2 hknows), ?_⟩
  obtain ⟨tokens, hread, hsublist⟩ := Expr.occurrences_of_parse h
  exact ⟨tokens, hread, e.names_eq_map_occurrences, hsublist⟩

/-- A call with the event, and with a variable that is used twice. -/
theorem resolve_pick :
    let ctx : Context := {
      component := { own := { methods := ["pick"] } }
      root := [⟨"i", .int, .loopLocal⟩] }
    ∃ e, Expr.parse "pick((int) $event, i, i)" = .ok e ∧ ctx.Knows "$event" e ∧
      ctx.Closes "$event" e (ctx.resolve "$event" true e) := by
  intro ctx
  have hrun : (Expr.parse "pick((int) $event, i, i)").toOption.map
      (fun e => (ctx.resolve "$event" true e).problems) = some [] := by
    decide +kernel
  cases hparse : Expr.parse "pick((int) $event, i, i)" with
  | error error =>
    rw [hparse] at hrun
    cases hrun
  | ok e =>
    rw [hparse] at hrun
    obtain ⟨hiff, hcloses, -⟩ := resolve_closed hparse ctx "$event" true
    have hknows := hiff.1 (Option.some.inj hrun)
    exact ⟨e, rfl, hknows, hcloses hknows⟩

end Context

end Stencil
