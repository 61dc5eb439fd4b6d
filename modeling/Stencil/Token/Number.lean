import Stencil.Token.Basic
import Stencil.Text.CharClass
import Stencil.Number.Binary64

/-!
# Number literals

A decimal literal is a run of digits with separators, at most one point and exponents; a hexadecimal
literal is `0x` and its digits. A letter behind the literal may say which type it has. `scan` finds
where a literal ends, `bits` is the value it has.
-/

namespace Stencil.NumberLiteral

/-- Whether the text starts with a digit. -/
def startsWithDigit : List Char → Bool
  | c :: _ => c.isDigit
  | [] => false

/-- Reads digits, separators, points and exponents. `integer` says that neither a point nor an
exponent was read yet, `afterDigit` that the last character read was a digit. The result says
whether the literal is an integer, and what follows it; a fault comes with what follows the place
where reading stopped. -/
def scanDecimal : (integer afterDigit : Bool) → List Char →
    Except (LexFault × List Char) (Bool × List Char)
  | integer, _, [] => .ok (integer, [])
  | integer, afterDigit, c :: cs =>
    if c.isDigit then scanDecimal integer true cs
    else if c = '_' then
      if afterDigit && startsWithDigit cs then scanDecimal integer false cs
      else .error (.numericSeparator, c :: cs)
    else if c = '.' && integer then scanDecimal false false cs
    else if c = 'e' || c = 'E' then
      match cs with
      | [] => .error (.exponent, [])
      | s :: ds =>
        if s = '+' || s = '-' then
          if startsWithDigit ds then scanDecimal false false ds else .error (.exponent, ds)
        else if s.isDigit then scanDecimal false true ds
        else .error (.exponent, s :: ds)
    else .ok (integer, c :: cs)

/-- The text behind a type letter. Only an integer can be marked as a long one. -/
def dropSuffix (integer : Bool) : List Char → List Char
  | c :: cs =>
    if integer && (c = 'l' || c = 'L') then cs
    else if c = 'f' || c = 'F' || c = 'd' || c = 'D' then cs
    else c :: cs
  | [] => []

/-- Whether the text starts like a hexadecimal literal. -/
def isHexadecimal : List Char → Bool
  | '0' :: x :: _ => x = 'x' || x = 'X'
  | _ => false

/-- Whether `c` belongs to the digits of a hexadecimal literal. -/
def isHexPart (c : Char) : Bool := Text.isHexDigit c || c = '_'

/-- Reads the digits after `0x`, and the letter of a long literal. -/
def scanHexadecimal (cs : List Char) : Except (LexFault × List Char) (List Char) :=
  let rest := cs.dropWhile isHexPart
  if (cs.takeWhile isHexPart).isEmpty then .error (.hexadecimal, rest)
  else
    match rest with
    | c :: tail => if c = 'l' || c = 'L' then .ok tail else .ok rest
    | [] => .ok rest

/-- Reads a literal; the result is what follows it. An identifier must not stand right behind a
decimal literal. -/
def scan (cs : List Char) : Except (LexFault × List Char) (List Char) :=
  if isHexadecimal cs then scanHexadecimal (cs.drop 2)
  else do
    let (integer, rest) ← scanDecimal true false cs
    match dropSuffix integer rest with
    | c :: tail => if Text.isIdentifierPart c then .error (.numberLiteral, tail) else .ok (c :: tail)
    | [] => .ok []

/-! ## What a literal leaves unread -/

theorem suffix_of_scanDecimal {integer afterDigit i : Bool} {cs rest : List Char}
    (h : scanDecimal integer afterDigit cs = .ok (i, rest)) : rest <:+ cs := by
  fun_induction scanDecimal integer afterDigit cs with
  | case1 | case11 =>
    obtain ⟨rfl, rfl⟩ := Prod.mk.inj (Except.ok.inj h)
    exact List.suffix_refl _
  | case2 _ _ _ _ _ ih | case3 _ _ _ _ _ ih | case5 _ _ _ _ _ _ _ ih =>
    exact (ih h).trans (List.suffix_cons _ _)
  | case7 _ _ _ _ _ _ _ _ _ _ _ ih | case9 _ _ _ _ _ _ _ _ _ _ _ ih =>
    exact (ih h).trans ⟨[_, _], rfl⟩
  | case4 | case6 | case8 | case10 => nomatch h

theorem dropSuffix_suffix (integer : Bool) (cs : List Char) : dropSuffix integer cs <:+ cs := by
  cases cs with
  | nil => exact List.suffix_refl _
  | cons c cs =>
    rw [dropSuffix]
    split
    · exact List.suffix_cons _ _
    split
    · exact List.suffix_cons _ _
    · exact List.suffix_refl _

theorem suffix_of_scanHexadecimal {cs rest : List Char} (h : scanHexadecimal cs = .ok rest) :
    rest <:+ cs := by
  have hd : cs.dropWhile isHexPart <:+ cs := List.dropWhile_suffix _
  unfold scanHexadecimal at h
  generalize cs.dropWhile isHexPart = tail at h hd
  simp only at h
  split at h
  · simp at h
  split at h
  · split at h
    · obtain rfl := Except.ok.inj h
      exact (List.suffix_cons _ _).trans hd
    · obtain rfl := Except.ok.inj h
      exact hd
  · obtain rfl := Except.ok.inj h
    exact hd

/-- A literal that starts with `c`, a digit or the point before one, takes at least `c`. -/
theorem suffix_of_scan {c : Char} {cs rest : List Char}
    (hc : c.isDigit ∨ c = '.') (h : scan (c :: cs) = .ok rest) : rest <:+ cs := by
  unfold scan at h
  split at h
  · next hx =>
    cases cs with
    | nil => simp [isHexadecimal] at hx
    | cons x tail => exact (suffix_of_scanHexadecimal h).trans (List.suffix_cons _ _)
  · cases hd : scanDecimal true false (c :: cs) with
    | error e => simp [hd, bind, Except.bind] at h
    | ok r =>
      obtain ⟨integer, unread⟩ := r
      have hs : unread <:+ cs := by
        rcases hc with hc | rfl
        · rw [scanDecimal.eq_def] at hd
          simp only [hc, if_true] at hd
          exact suffix_of_scanDecimal hd
        · rw [scanDecimal.eq_def] at hd
          exact suffix_of_scanDecimal hd
      have hr : rest = dropSuffix integer unread := by
        simp only [hd, bind, Except.bind] at h
        split at h
        · next ht =>
          split at h
          · simp at h
          · rw [ht, Except.ok.inj h]
        · next ht => rw [ht, Except.ok.inj h]
      exact hr ▸ (dropSuffix_suffix _ _).trans hs

/-! ## The value of a literal -/

/-- The digits of a decimal literal without separators and type letter. -/
def plainDigits (spelling : List Char) : List Char :=
  let digits := spelling.filter (· ≠ '_')
  match digits.reverse with
  | c :: rest => if ['l', 'L', 'f', 'F', 'd', 'D'].contains c then rest.reverse else digits
  | [] => []

/-- The value of a decimal literal. A literal with two exponents has the value zero. -/
def decimalBits (spelling : List Char) : Nat :=
  let digits := plainDigits spelling
  let whole := digits.takeWhile Char.isDigit
  let (fraction, tail) := match digits.dropWhile Char.isDigit with
    | '.' :: rest => (rest.takeWhile Char.isDigit, rest.dropWhile Char.isDigit)
    | rest => ([], rest)
  let (negative, exponent) := match tail with
    | _ :: '-' :: rest => (true, rest)
    | _ :: '+' :: rest => (false, rest)
    | _ :: rest => (false, rest)
    | [] => (false, ['0'])
  if exponent.all Char.isDigit then
    let e : Int := Text.decimalValue exponent
    Binary64.nearestScientific (Text.decimalValue (whole ++ fraction))
      ((if negative then -e else e) - fraction.length)
  else 0

/-- The value of a hexadecimal literal. One that does not fit into 64 bits has the value zero. -/
def hexadecimalBits (spelling : List Char) : Nat :=
  let n := Text.hexValue ((spelling.drop 2).filter Text.isHexDigit)
  if n < UInt64.size then Binary64.nearest n 1 else 0

/-- The bit pattern of the double that a literal denotes. -/
def bits (spelling : List Char) : Nat :=
  if isHexadecimal spelling then hexadecimalBits spelling else decimalBits spelling

end Stencil.NumberLiteral
