import Stencil.Text.Search

/-!
# JSON values

Objects keep their fields in the order of the text, repeated keys included; what a repetition means
is for the reader of a particular object to say. A number is kept as it is spelled.

The decoders at the end read objects with known keys. An object with known keys may also be written
as an array of its values in the order of the keys.
-/

namespace Stencil

/-- A JSON value. -/
inductive Json
  | null
  | bool (value : Bool)
  | number (spelling : String)
  | string (value : String)
  | array (items : List Json)
  | object (fields : List (String × Json))
  /-- A value that is well formed but that nothing can be made of: a string or key with half of a
  surrogate pair, or a value nested too deeply. It may be skipped, not decoded. -/
  | unusable
  deriving Inhabited, Repr

namespace Json

/-- The number `n`. -/
def ofNat (n : Nat) : Json := .number (toString n)

/-- The value, or `null` when there is none. -/
def ofOption {α : Type} (f : α → Json) : Option α → Json
  | some a => f a
  | none => .null

/-! ## Decoding -/

/-- The text of a string. -/
def asString? : Json → Option String
  | .string s => some s
  | _ => none

/-- The value of a Boolean. -/
def asBool? : Json → Option Bool
  | .bool b => some b
  | _ => none

/-- The items of an array. -/
def asArray? : Json → Option (List Json)
  | .array items => some items
  | _ => none

/-- The fields of an object. -/
def asObject? : Json → Option (List (String × Json))
  | .object fields => some fields
  | _ => none

/-- The value of a number that is spelled without sign, fraction and exponent and fits into 64
bits. -/
def asNat? : Json → Option Nat
  | .number spelling =>
    match spelling.toList with
    | [] => none
    | digits =>
      if digits.all Char.isDigit then
        let n := digits.foldl (fun n c => 10 * n + (c.toNat - '0'.toNat)) 0
        if n < UInt64.size then some n else none
      else none
  | _ => none

/-- Every item of an array, decoded. -/
def asListOf? {α : Type} (decode : Json → Option α) (j : Json) : Option (List α) := do
  (← j.asArray?).mapM decode

/-- The fields of an object with known keys. -/
structure Fields where
  /-- The value of a key. -/
  get? : String → Option Json
  /-- Whether the object was written as an array of its values. -/
  positional : Bool

/-- The fields of an object that knows the keys `names`. Other keys are skipped. A known key must not
be repeated, and an array must not have more items than there are known keys. -/
def fields? (names : List String) : Json → Option Fields
  | .object fields =>
    if names.any fun name => 1 < (fields.filter fun field => field.1 == name).length then none
    else some ⟨fun name => (fields.find? fun field => field.1 == name).map (·.2), false⟩
  | .array items =>
    if names.length < items.length then none
    else
      some ⟨fun name => ((names.zip items).find? fun field => field.1 == name).map (·.2), true⟩
  | _ => none

namespace Fields

/-- A field that must be there. -/
def required {α : Type} (fields : Fields) (name : String) (decode : Json → Option α) : Option α :=
  (fields.get? name).bind decode

/-- A field with a default for when it is absent. -/
def optional {α : Type} (fields : Fields) (name : String) (default : α)
    (decode : Json → Option α) : Option α :=
  match fields.get? name with
  | some value => decode value
  | none => some default

end Fields

/-- The value of a key is part of the object. -/
theorem sizeOf_of_fields? {names : List String} {j : Json} {fields : Fields}
    (h : fields? names j = some fields) {name : String} {value : Json}
    (hv : fields.get? name = some value) : sizeOf value < sizeOf j := by
  have key (j : Json) (entries : List (String × Json)) (h : sizeOf entries < sizeOf j)
      (hv : ((entries.find? fun e => e.1 == name).map (·.2)) = some value) :
      sizeOf value < sizeOf j := by
    obtain ⟨⟨k, v⟩, hfind, rfl⟩ := Option.map_eq_some_iff.1 hv
    have := List.sizeOf_lt_of_mem (List.mem_of_find?_eq_some hfind)
    simp only [Prod.mk.sizeOf_spec] at this
    show sizeOf v < sizeOf j
    omega
  cases j with
  | object entries =>
    simp only [fields?] at h
    split at h
    · simp at h
    · obtain rfl := Option.some.inj h
      exact key _ entries (by simp only [object.sizeOf_spec]; omega) hv
  | array items =>
    simp only [fields?] at h
    split at h
    · simp at h
    · obtain rfl := Option.some.inj h
      obtain ⟨⟨k, v⟩, hfind, rfl⟩ := Option.map_eq_some_iff.1 hv
      have := List.sizeOf_lt_of_mem (List.of_mem_zip (List.mem_of_find?_eq_some hfind)).2
      show sizeOf v < sizeOf (Json.array items)
      simp only [array.sizeOf_spec]
      omega
  | _ => simp [fields?] at h

/-- Decodes `null` as the absence of a value. -/
def asOption? {α : Type} (decode : Json → Option α) : Json → Option (Option α)
  | .null => some none
  | j => (decode j).map some

end Json

end Stencil
