/-!
# Rounding to binary64

The bit pattern of the double that is nearest to a fraction of naturals, a tie going to the even
significand. Everything is exact arithmetic on naturals; no floating point value is ever formed.
-/

namespace Stencil.Binary64

/-- The bit pattern of positive infinity, the result of every overflow. -/
def infinity : Nat := 0x7FF0000000000000

/-- The highest bit of a normal significand, of weight `2 ^ 52`. It is not stored. -/
def hiddenBit : Nat := 0x10000000000000

/-- The quotient rounded to the nearest natural, a tie going to the even one. -/
def roundHalfEven (num den : Nat) : Nat :=
  let q := num / den
  let r := num % den
  if 2 * r < den then q
  else if den < 2 * r then q + 1
  else if q % 2 = 0 then q else q + 1

/-- The greatest `e` with `2 ^ e ≤ num / den`, for positive `num` and `den`. -/
def floorLog2 (num den : Nat) : Int :=
  let e : Int := (Nat.log2 num : Int) - (Nat.log2 den : Int)
  if num <<< (-e).toNat < den <<< e.toNat then e - 1 else e

/-- The bit pattern of the double nearest to `num / den`. The last bit of the significand has the
weight `2 ^ k`; `k` is never below -1074, the weight of the last bit of a subnormal double. -/
def nearest (num den : Nat) : Nat :=
  if num = 0 then 0
  else
    let k := max (floorLog2 num den - 52) (-1074)
    let q := roundHalfEven (num <<< (-k).toNat) (den <<< k.toNat)
    if q < hiddenBit then q
    else min infinity ((k + 1075).toNat * hiddenBit + (q - hiddenBit))

/-- The number of decimal digits beyond which an exponent decides the result alone. -/
def exponentLimit : Nat := 400

/-- The bit pattern of the double nearest to `m * 10 ^ e`. -/
def nearestScientific (m : Nat) (e : Int) : Nat :=
  if m = 0 then 0
  else if (exponentLimit : Int) < e then infinity
  else if e + (Nat.log2 m + 1 : Nat) < -(exponentLimit : Int) then 0
  else nearest (m * Nat.pow 10 e.toNat) (Nat.pow 10 (-e).toNat)

end Stencil.Binary64
