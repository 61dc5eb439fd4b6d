/-!
# Searching in a text

Finding the first occurrence of a mark, and cutting a text at a character.
-/

namespace Stencil.Text

/-- The text before the first occurrence of `mark` and the text after it. -/
def cutAt (mark : List Char) : List Char → Option (List Char × List Char)
  | [] => if mark.isEmpty then some ([], []) else none
  | c :: cs =>
    if mark.isPrefixOf (c :: cs) then some ([], (c :: cs).drop mark.length)
    else (cutAt mark cs).map fun (before, after) => (c :: before, after)

/-- What `cutAt` returns, put together again, is the text. -/
theorem eq_of_cutAt {mark cs before after : List Char} (h : cutAt mark cs = some (before, after)) :
    cs = before ++ mark ++ after := by
  induction cs generalizing before with
  | nil =>
    cases mark <;> simp_all [cutAt]
  | cons c cs ih =>
    rw [cutAt] at h
    split at h
    · next hp =>
      obtain ⟨rfl, rfl⟩ : [] = before ∧ (c :: cs).drop mark.length = after := by simpa using h
      obtain ⟨t, ht⟩ := List.isPrefixOf_iff_prefix.1 hp
      simp [← ht]
    · next hp =>
      obtain ⟨⟨b, a⟩, hb, he⟩ := Option.map_eq_some_iff.1 h
      obtain ⟨rfl, rfl⟩ : c :: b = before ∧ a = after := by simpa using he
      simp [ih hb]

/-- The text before the first `c` and the text after it. -/
def cutAtChar (c : Char) (cs : List Char) : Option (List Char × List Char) := cutAt [c] cs

/-- The text after the last `c`, or the whole text when it has none. -/
def afterLast (c : Char) (cs : List Char) : List Char :=
  (cs.reverse.takeWhile (· != c)).reverse

/-- The text with every `c` replaced by `replacement`. -/
def replaceChar (c : Char) (replacement : List Char) (cs : List Char) : List Char :=
  cs.flatMap fun d => if d = c then replacement else [d]

/-- The pieces of the text between the occurrences of `c`. -/
def splitOnChar (c : Char) : List Char → List (List Char)
  | [] => [[]]
  | d :: cs =>
    if d = c then [] :: splitOnChar c cs
    else
      match splitOnChar c cs with
      | piece :: pieces => (d :: piece) :: pieces
      | [] => [[d]]

/-- The texts put together, with `separator` between two neighbours. -/
def joinWith (separator : String) : List String → String
  | [] => ""
  | [s] => s
  | s :: t :: rest => s ++ separator ++ joinWith separator (t :: rest)

end Stencil.Text
