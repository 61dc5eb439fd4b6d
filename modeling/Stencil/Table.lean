/-!
# Tables

A table gives values to texts and remembers the order in which its keys came first. Giving a key a
new value keeps its place. Lookup after insertion and the order of keys are what the lemmas are
about.
-/

namespace Stencil

/-- Values by key, in the order in which the keys were first inserted. -/
structure Table (α : Type) where
  entries : List (String × α)
  nodup : (entries.map Prod.fst).Nodup

namespace Table

variable {α : Type}

/-- The table without entries. -/
def empty : Table α := ⟨[], .nil⟩

instance : Inhabited (Table α) := ⟨empty⟩

/-- The keys, in order. -/
def keys (t : Table α) : List String := t.entries.map Prod.fst

/-- The values, in the order of their keys. -/
def values (t : Table α) : List α := t.entries.map Prod.snd

/-- The value of a key. -/
def find? (t : Table α) (key : String) : Option α := t.entries.lookup key

/-- Whether the key has a value. -/
def contains (t : Table α) (key : String) : Bool := (t.find? key).isSome

theorem ext {s t : Table α} (h : s.entries = t.entries) : s = t := by
  cases s; cases t; simp_all

/-! ## Insertion -/

/-- The entries with a value for `key`: in the place of the old one, else at the end. -/
def put (key : String) (value : α) : List (String × α) → List (String × α)
  | [] => [(key, value)]
  | (k, v) :: entries => if k = key then (key, value) :: entries else (k, v) :: put key value entries

theorem keys_put (key : String) (value : α) (entries : List (String × α)) :
    (put key value entries).map Prod.fst =
      if key ∈ entries.map Prod.fst then entries.map Prod.fst
      else entries.map Prod.fst ++ [key] := by
  induction entries with
  | nil => simp [put]
  | cons entry entries ih =>
    by_cases h : entry.1 = key
    · simp [put, h]
    · simp only [put, h, if_false, List.map_cons, ih, List.mem_cons]
      by_cases hm : key ∈ entries.map Prod.fst <;> simp [hm, Ne.symm h]

theorem lookup_put (key : String) (value : α) (entries : List (String × α)) (name : String) :
    (put key value entries).lookup name =
      if name = key then some value else entries.lookup name := by
  have key_ne {a b : String} (h : ¬a = b) : (a == b) = false := beq_false_of_ne h
  induction entries with
  | nil => by_cases h : name = key <;> simp [put, List.lookup_cons, h, key_ne]
  | cons entry entries ih =>
    obtain ⟨k, v⟩ := entry
    by_cases hk : k = key
    · subst hk
      by_cases h : name = k <;> simp [put, List.lookup_cons, h, key_ne]
    · by_cases h : name = k
      · subst h; simp [put, hk]
      · simp [put, hk, List.lookup_cons, h, key_ne, ih]

/-- The table in which `key` has the given value. -/
def insert (t : Table α) (key : String) (value : α) : Table α where
  entries := put key value t.entries
  nodup := by
    rw [keys_put]
    split
    · exact t.nodup
    · next h =>
      refine List.nodup_append.2 ⟨t.nodup, by simp, ?_⟩
      rintro a ha _ hb rfl
      exact h (by simpa [List.mem_singleton.1 hb] using ha)

/-- The table in which `key` has its old value, or else the given one. -/
def insertNew (t : Table α) (key : String) (value : α) : Table α :=
  if t.contains key then t else t.insert key value

/-- The table of the given entries. Of several values for a key the last one counts. -/
def ofList (entries : List (String × α)) : Table α :=
  entries.foldl (fun t entry => t.insert entry.1 entry.2) empty

@[simp] theorem find?_empty (name : String) : (empty : Table α).find? name = none := rfl

@[simp] theorem find?_insert (t : Table α) (key : String) (value : α) (name : String) :
    (t.insert key value).find? name = if name = key then some value else t.find? name :=
  lookup_put key value t.entries name

theorem find?_insertNew (t : Table α) (key : String) (value : α) (name : String) :
    (t.insertNew key value).find? name =
      if name = key then some ((t.find? key).getD value) else t.find? name := by
  unfold insertNew contains
  cases h : t.find? key with
  | none => simp
  | some old => by_cases hn : name = key <;> simp [hn, h]

theorem keys_insert (t : Table α) (key : String) (value : α) :
    (t.insert key value).keys = if key ∈ t.keys then t.keys else t.keys ++ [key] :=
  keys_put key value t.entries

end Table

end Stencil
