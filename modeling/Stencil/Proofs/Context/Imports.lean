import Stencil.Context.Imports
import Mathlib.Data.List.Basic

/-!
# Many imports

What a sequence of imports of one kind comes to. Of explicit imports the last one of a simple name
counts, whatever was known before (`Imports.find?_addAll`); implicit ones count only for simple names
that nothing else takes, and of several the first (`Imports.find?_addAllImplicit`).

A context is compiled with more than once, and every compile makes the imports of its settings and of
its template. So what matters is that a name keeps its place in the table: making the same imports
once more changes nothing, not even the order (`addAll_addAllImplicit_again`). A table is known by its
keys, in their order, and by what they stand for (`Table.ext_find?`). The second time the keys are all
taken (`KnowsAll`), so implicit imports do nothing at all, and explicit ones put in again what they
put in before.

**What it does not establish.** A mixture of both kinds is taken up in Proofs/Context/Qualified. Here
nothing is said of types, only of the table of names.
-/

namespace Stencil

/-! ## Tables -/

namespace Table

variable {α : Type} {s t : Table α} {key : String}

/-- A table contains its keys. -/
theorem contains_iff : t.contains key = true ↔ key ∈ t.keys := by
  rw [Table.contains, Table.find?, List.lookup_isSome_iff, Table.keys, List.mem_map]
  refine exists_congr fun entry => and_congr_right fun _ => ?_
  rw [beq_iff_eq, eq_comm]

/-- What is found is found under a key. -/
theorem mem_keys_of_find? {value : α} (h : t.find? key = some value) : key ∈ t.keys :=
  contains_iff.1 (by rw [contains, h]; rfl)

/-- The entries are the keys with what they stand for. -/
theorem entries_eq (t : Table α) :
    t.entries = t.keys.filterMap fun key => (t.find? key).map (Prod.mk key) := by
  obtain ⟨entries, hnodup⟩ := t
  induction entries with
  | nil => rfl
  | cons entry entries ih =>
    obtain ⟨key, value⟩ := entry
    obtain ⟨hkey, hnodup'⟩ := List.nodup_cons.1 hnodup
    have hbelow : ∀ name ∈ entries.map Prod.fst,
        (((key, value) :: entries).lookup name).map (Prod.mk name) =
          (entries.lookup name).map (Prod.mk name) := by
      intro name hname
      have hne : (name == key) = false := beq_false_of_ne fun heq => hkey (heq ▸ hname)
      rw [List.lookup_cons, hne]
    have hfirst : ((key, value) :: entries).lookup key = some value := by simp
    show (key, value) :: entries = (key :: entries.map Prod.fst).filterMap
      fun name => (((key, value) :: entries).lookup name).map (Prod.mk name)
    rw [List.filterMap_cons, hfirst, List.filterMap_congr hbelow]
    exact congrArg ((key, value) :: ·) (ih hnodup')

/-- A table is known by its keys, in their order, and by what they stand for. -/
theorem ext_find? (hkeys : s.keys = t.keys) (hfind : ∀ key, s.find? key = t.find? key) : s = t := by
  apply Table.ext
  rw [entries_eq, entries_eq, hkeys]
  simp only [hfind]

end Table

/-! ## Imports -/

namespace Imports

variable {imports : Imports} {names : List String} {name : String}

/-- Imports the names, one after the other. -/
def addAll (imports : Imports) (names : List String) : Imports := names.foldl add imports

/-- Imports the names, one after the other, as far as their simple names are not taken. -/
def addAllImplicit (imports : Imports) (names : List String) : Imports :=
  names.foldl addImplicit imports

/-- The qualified names, without the white space around them, that have the given simple name. -/
def named (names : List String) (name : String) : List String :=
  (names.map Text.trimString).filter fun qualified => Text.simpleName qualified == name

/-- The imports of a simple name, with one more in front. -/
theorem named_cons (qualified : String) : named (qualified :: names) name =
    if name = Text.simpleName (Text.trimString qualified) then
      Text.trimString qualified :: named names name
    else named names name := by
  rw [named, List.map_cons, List.filter_cons]
  refine if_congr ?_ rfl rfl
  rw [beq_iff_eq, eq_comm]

/-- An import is one of those of its simple name. -/
theorem named_ne_nil {qualified : String} (h : qualified ∈ names) :
    named names (Text.simpleName (Text.trimString qualified)) ≠ [] :=
  List.ne_nil_of_mem (List.mem_filter.2 ⟨List.mem_map_of_mem h, beq_self_eq_true _⟩)

/-- The last explicit import of a simple name counts, and replaces what was there. -/
theorem find?_addAll (imports : Imports) (names : List String) (name : String) :
    (imports.addAll names).names.find? name =
      (named names name).getLast?.or (imports.names.find? name) := by
  induction names generalizing imports with
  | nil => rfl
  | cons qualified names ih =>
    refine (ih (imports.add qualified)).trans ?_
    rw [add, Table.find?_insert, named_cons]
    split
    · rw [List.getLast?_cons]
      cases (named names name).getLast? <;> rfl
    · rfl

/-- The first implicit import of a simple name counts, unless there is something already. -/
theorem find?_addAllImplicit (imports : Imports) (names : List String) (name : String) :
    (imports.addAllImplicit names).names.find? name =
      (imports.names.find? name).or (named names name).head? := by
  induction names generalizing imports with
  | nil => exact (Option.or_none).symm
  | cons qualified names ih =>
    refine (ih (imports.addImplicit qualified)).trans ?_
    rw [addImplicit, Table.find?_insertNew, named_cons]
    split
    · next heq =>
      subst heq
      cases imports.names.find? _ <;> rfl
    · rfl

/-! ## The same imports once more -/

/-- The simple names of all these are taken. -/
def KnowsAll (imports : Imports) (names : List String) : Prop :=
  ∀ qualified ∈ names, Text.simpleName (Text.trimString qualified) ∈ imports.names.keys

/-- Explicit imports are known afterwards. -/
theorem knowsAll_addAll (imports : Imports) (names : List String) :
    (imports.addAll names).KnowsAll names := by
  intro qualified hmem
  have hfind := find?_addAll imports names (Text.simpleName (Text.trimString qualified))
  rw [List.getLast?_eq_some_getLast (named_ne_nil hmem), Option.some_or] at hfind
  exact Table.mem_keys_of_find? hfind

/-- Implicit imports are known afterwards. -/
theorem knowsAll_addAllImplicit (imports : Imports) (names : List String) :
    (imports.addAllImplicit names).KnowsAll names := by
  intro qualified hmem
  have hfind := find?_addAllImplicit imports names (Text.simpleName (Text.trimString qualified))
  rw [List.head?_eq_some_head (named_ne_nil hmem)] at hfind
  cases hold : imports.names.find? (Text.simpleName (Text.trimString qualified)) with
  | none => exact Table.mem_keys_of_find? (hfind.trans (by rw [hold]; rfl))
  | some old => exact Table.mem_keys_of_find? (hfind.trans (by rw [hold]; rfl))

/-- What is known stays known. -/
theorem keys_subset_addAll (imports : Imports) (names : List String) :
    imports.names.keys ⊆ (imports.addAll names).names.keys := by
  intro name hname
  have hfind := find?_addAll imports names name
  obtain ⟨value, hvalue⟩ := Option.isSome_iff_exists.1 (Table.contains_iff.2 hname)
  rw [hvalue] at hfind
  cases hlast : (named names name).getLast? with
  | none => exact Table.mem_keys_of_find? (hfind.trans (by rw [hlast]; rfl))
  | some last => exact Table.mem_keys_of_find? (hfind.trans (by rw [hlast]; rfl))

/-- Imports of simple names that are taken add no name. -/
theorem keys_addAll_of_knowsAll (h : imports.KnowsAll names) :
    (imports.addAll names).names.keys = imports.names.keys := by
  induction names generalizing imports with
  | nil => rfl
  | cons qualified names ih =>
    obtain ⟨hfirst, hrest⟩ := List.forall_mem_cons.1 h
    have hkeys : (imports.add qualified).names.keys = imports.names.keys := by
      rw [add, Table.keys_insert, if_pos hfirst]
    have hknown : (imports.add qualified).KnowsAll names := by
      rwa [KnowsAll, hkeys]
    exact (ih hknown).trans hkeys

/-- Implicit imports of names that are taken change nothing. -/
theorem addAllImplicit_of_knowsAll (h : imports.KnowsAll names) :
    imports.addAllImplicit names = imports := by
  induction names with
  | nil => rfl
  | cons qualified names ih =>
    obtain ⟨hfirst, hrest⟩ := List.forall_mem_cons.1 h
    have hsame : imports.addImplicit qualified = imports := by
      rw [addImplicit, Table.insertNew, if_pos (Table.contains_iff.2 hfirst)]
    rw [addAllImplicit, List.foldl_cons, hsame]
    exact ih hrest

/-- Explicit imports made once more change nothing. -/
theorem addAll_addAll (imports : Imports) (names : List String) :
    (imports.addAll names).addAll names = imports.addAll names := by
  have htable : ((imports.addAll names).addAll names).names = (imports.addAll names).names := by
    refine Table.ext_find? (keys_addAll_of_knowsAll (knowsAll_addAll imports names)) fun name => ?_
    rw [find?_addAll, find?_addAll, ← Option.or_assoc, Option.or_self]
  exact congrArg Imports.mk htable

/-- Implicit and then explicit imports, made once more, change nothing. -/
theorem addAll_addAllImplicit_again (imports : Imports) (implicit explicit : List String) :
    (((imports.addAllImplicit implicit).addAll explicit).addAllImplicit implicit).addAll explicit =
      (imports.addAllImplicit implicit).addAll explicit := by
  have hknown : ((imports.addAllImplicit implicit).addAll explicit).KnowsAll implicit :=
    fun qualified hmem => keys_subset_addAll _ _ (knowsAll_addAllImplicit imports implicit qualified hmem)
  rw [addAllImplicit_of_knowsAll hknown, addAll_addAll]

end Imports

end Stencil
