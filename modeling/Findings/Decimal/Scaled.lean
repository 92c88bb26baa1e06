/-!
# From decimal to binary

The binary64 number of a significand below `2 ^ 64` and a power of ten. The significand is rounded
first and then multiplied or divided once by a rounded power of ten, in steps of `10 ^ 308` where
the power is smaller than any binary64 number; the result is near, and not always nearest. A number
above all binary64 numbers has none.
-/

namespace Findings.Decimal

/-- The greatest power of ten that is a binary64 number. -/
def greatestPower : Nat := 308

/-- A power of ten, rounded. -/
def powerOfTen (n : Nat) : Float :=
  Float.ofScientific 1 false n

/-- Multiplies `x` by `10 ^ e`. -/
def scale (x : Float) (e : Int) : Option Float :=
  if e.natAbs ≤ greatestPower then
    if 0 ≤ e then
      let y := x * powerOfTen e.natAbs
      if y.isInf then none else some y
    else some (x / powerOfTen e.natAbs)
  else if x == 0 then some x
  else if 0 ≤ e then none
  else scale (x / powerOfTen greatestPower) (e + greatestPower)
termination_by e.natAbs
decreasing_by
  simp only [greatestPower] at *
  omega

/-- The binary64 number near `significand · 10 ^ exponent`. -/
def scaled (significand : Nat) (exponent : Int) : Option Float :=
  scale significand.toUInt64.toFloat exponent

end Findings.Decimal
