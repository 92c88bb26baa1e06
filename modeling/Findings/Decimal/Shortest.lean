/-!
# The fewest digits that tell a binary number apart

A binary64 number is told by the shortest decimal number that is nearer to it than to its
neighbours. `Decimal.ofBinary` works in exact natural numbers: it tries grids of powers of ten from
coarse to fine, and on each grid looks only at the two points around the number. The first grid with
a point near enough wins, of two such points the nearer one, and of two equally near ones the even
one.
-/

namespace Findings

/-- The decimal number `digits · 10 ^ exponent`. -/
structure Decimal where
  digits : Nat
  exponent : Int
  deriving DecidableEq

namespace Decimal

/-- The same number without zeros at the end of its digits. -/
def trim (d : Decimal) : Decimal :=
  if _h : d.digits ≠ 0 ∧ d.digits % 10 = 0 then
    trim { digits := d.digits / 10, exponent := d.exponent + 1 }
  else d
termination_by d.digits
decreasing_by omega

/-! ## Binary numbers -/

/-- The positive number `significand · 2 ^ exponent` among those of its format. -/
structure Binary where
  significand : Nat
  exponent : Int
  /-- The next number below is only half as far away as the next one above. -/
  narrow : Bool
  deriving DecidableEq

/-- The magnitude of the binary64 number with these bits. -/
def Binary.ofBits (bits : UInt64) : Binary :=
  let fraction : Nat := bits.toNat % Nat.pow 2 52
  let scale : Nat := bits.toNat / Nat.pow 2 52 % Nat.pow 2 11
  if scale = 0 then { significand := fraction, exponent := -1074, narrow := false }
  else
    { significand := fraction + Nat.pow 2 52, exponent := (scale : Int) - 1075
      narrow := fraction == 0 && 1 < scale }

/-- The exponent of the leading decimal digit. Binary64 numbers are scaled up so far that all of
them have a digit before the point. -/
def Binary.magnitude (b : Binary) : Int :=
  let scaled :=
    b.significand * Nat.pow 10 400 * Nat.pow 2 b.exponent.toNat / Nat.pow 2 (-b.exponent).toNat
  (Nat.toDigits 10 scaled).length - 401

/-! ## Grids -/

/-- The point of the grid of the multiples of `10 ^ e` that is told instead of `b`, if one is near
enough. Lengths are counted in quarters of the last place of `b`, of which `unit` make `scale` steps
of the grid. An end of the interval counts if the significand is even. -/
def Binary.onGrid (b : Binary) (e : Int) : Option Nat :=
  let unit := Nat.pow 2 (b.exponent - 2).toNat * Nat.pow 10 (-e).toNat
  let scale := Nat.pow 2 (2 - b.exponent).toNat * Nat.pow 10 e.toNat
  let middle := 4 * b.significand * unit
  let low := (4 * b.significand - if b.narrow then 1 else 2) * unit
  let high := (4 * b.significand + 2) * unit
  let near (d : Nat) : Bool :=
    if b.significand % 2 = 0 then low ≤ d * scale && d * scale ≤ high
    else low < d * scale && d * scale < high
  let below := middle / scale
  let above := below + 1
  if near below then
    if near above then
      let down := middle - below * scale
      let up := above * scale - middle
      some (if down < up || (down == up && below % 2 == 0) then below else above)
    else some below
  else if near above then some above
  else none

/-- The decimal number that is told instead of `b`. Seventeen digits are always enough. -/
def ofBinary (b : Binary) : Decimal :=
  let point (k : Nat) : Option Decimal :=
    let e := b.magnitude - k
    (b.onGrid e).map fun digits => { digits, exponent := e }
  match (List.range 17).findSome? point with
  | some d => d.trim
  | none => { digits := b.significand, exponent := 0 }

end Decimal

end Findings
