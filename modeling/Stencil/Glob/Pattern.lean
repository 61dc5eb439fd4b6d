import Stencil.Text.Search

/-!
# File name patterns

A pattern is a path in which `?` stands for any character, `*` for any run of characters, and square
brackets for one character of a class, or, with an exclamation mark, for one that is not in it. A
segment `**` stands for any number of directories; two asterisks may stand nowhere else, and more
than two not at all.

A class ends at the first closing bracket that is not its first character. Ranges are written with a
hyphen.
-/

namespace Stencil

/-- A part of a pattern. -/
inductive GlobItem
  | char (c : Char)
  | anyChar
  | anyRun
  | directories
  | oneOf (ranges : List (Char × Char))
  | noneOf (ranges : List (Char × Char))
  deriving DecidableEq, Repr

namespace GlobItem

/-- The ranges of a class. A single character is a range of its own. -/
def ranges : List Char → List (Char × Char)
  | a :: '-' :: b :: cs => (a, b) :: ranges cs
  | a :: cs => (a, a) :: ranges cs
  | [] => []

/-- Whether the character is in one of the ranges. -/
def inRanges (ranges : List (Char × Char)) (c : Char) : Bool :=
  ranges.any fun (a, b) => a ≤ c && c ≤ b

/-- The class behind an opening bracket and what follows it. -/
def classAt? (cs : List Char) : Option (GlobItem × List Char) :=
  match cs with
  | '!' :: c :: rest =>
    (Text.cutAtChar ']' rest).map fun (inside, rest) => (noneOf (ranges (c :: inside)), rest)
  | c :: rest =>
    (Text.cutAtChar ']' rest).map fun (inside, rest) => (oneOf (ranges (c :: inside)), rest)
  | [] => none

/-- The part that a run of asterisks is and what follows it. Two asterisks must be a segment of
their own; the slash behind them belongs to them. -/
def starsAt? (previous : Option Char) (stars rest : List Char) : Option (GlobItem × List Char) :=
  match stars.length with
  | 1 => some (anyRun, rest)
  | 2 =>
    if previous = none || previous = some '/' then
      match rest with
      | [] => some (directories, [])
      | '/' :: rest => some (directories, rest)
      | _ => none
    else none
  | _ => none

theorem classAt?_length {cs rest : List Char} {item : GlobItem}
    (h : classAt? cs = some (item, rest)) : rest.length < cs.length := by
  have key (c : Char) (cs : List Char) (f : List Char → GlobItem)
      (h : (Text.cutAtChar ']' cs).map (fun r => (f r.1, r.2)) = some (item, rest)) :
      rest.length < (c :: cs).length := by
    obtain ⟨⟨inside, behind⟩, hcut, he⟩ := Option.map_eq_some_iff.1 h
    obtain ⟨-, rfl⟩ := Prod.mk.inj he
    simp [Text.eq_of_cutAt hcut]
    omega
  unfold classAt? at h
  split at h
  · next c cs => exact Nat.lt_succ_of_lt (key c cs (fun inside => noneOf (ranges (c :: inside))) h)
  · next c cs _ => exact key c cs (fun inside => oneOf (ranges (c :: inside))) h
  · simp at h

theorem starsAt?_length {previous : Option Char} {stars cs rest : List Char} {item : GlobItem}
    (h : starsAt? previous stars cs = some (item, rest)) : rest.length ≤ cs.length := by
  unfold starsAt? at h
  repeat' split at h
  all_goals simp at h
  all_goals grind

/-- The parts of a pattern; `previous` is the character in front of it. There are none if the pattern
is malformed. -/
def parse? (previous : Option Char) (cs : List Char) : Option (List GlobItem) :=
  match cs with
  | [] => some []
  | '?' :: cs => (parse? (some '?') cs).map (anyChar :: ·)
  | '[' :: cs =>
    match h : classAt? cs with
    | some (item, rest) =>
      have := classAt?_length h
      (parse? (some ']') rest).map (item :: ·)
    | none => none
  | '*' :: cs =>
    let stars := '*' :: cs.takeWhile (· = '*')
    match h : starsAt? previous stars (cs.dropWhile (· = '*')) with
    | some (item, rest) =>
      have := Nat.le_trans (starsAt?_length h) (List.dropWhile_suffix (l := cs) _).length_le
      (parse? (some (if item = .directories then '/' else '*')) rest).map (item :: ·)
    | none => none
  | c :: cs => (parse? (some c) cs).map (char c :: ·)
termination_by cs.length

/-- Whether a name is what the parts stand for. -/
def matchAll : List GlobItem → List Char → Bool
  | [], cs => cs.isEmpty
  | item :: items, cs =>
    match item, cs with
    | .anyRun, [] | .directories, [] => matchAll items []
    | .anyRun, c :: cs | .directories, c :: cs => matchAll items (c :: cs) || matchAll (item :: items) cs
    | .char a, c :: cs => a = c && matchAll items cs
    | .anyChar, _ :: cs => matchAll items cs
    | .oneOf ranges, c :: cs => inRanges ranges c && matchAll items cs
    | .noneOf ranges, c :: cs => !inRanges ranges c && matchAll items cs
    | _, [] => false
termination_by items cs => items.length + cs.length

/-- The name that the parts spell, if nothing in them stands for more than itself. -/
def literal? (items : List GlobItem) : Option String :=
  (items.mapM fun | char c => some c | _ => none).map String.ofList

end GlobItem

/-- A pattern for the paths of files. -/
structure Glob where
  isAbsolute : Bool
  /-- What stands between the slashes. -/
  pieces : List (List GlobItem)
  /-- Whether the pattern ends with a slash, so that only directories match. -/
  wantsDirectory : Bool
  deriving DecidableEq, Repr

namespace Glob

/-- The texts between the slashes; a slash at the end ends the last of them. -/
def splitPieces (cs : List Char) : List (List Char) :=
  let pieces := Text.splitOnChar '/' cs
  if pieces.getLast? = some [] then pieces.dropLast else pieces

/-- The pattern that a text spells. It must be well formed as a whole and between any two slashes; a
slash does not end a class in the former, but does so in the latter. -/
def parse? (pattern : String) : Option Glob := do
  let cs := pattern.toList
  let _ ← GlobItem.parse? none cs
  let isAbsolute := cs.head? = some '/'
  let relative := if isAbsolute then cs.drop 1 else cs
  let pieces ← (splitPieces relative).mapM (GlobItem.parse? none)
  return {
    isAbsolute
    pieces := if relative.isEmpty then [[]] else pieces
    wantsDirectory := cs.getLast? = some '/' }

end Glob

end Stencil
