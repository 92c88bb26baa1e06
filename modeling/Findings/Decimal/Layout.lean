import Findings.Decimal.Shortest

/-!
# Decimal numbers as text

A number is written plainly, with at least one digit on either side of the point, or with one digit
before the point and an exponent. A `Layout` says for which numbers the first form is taken.
-/

namespace Findings.Decimal

/-- The numbers that are written plainly: those whose leading digit has an exponent in this range,
the ends included. -/
structure Layout where
  least : Int
  most : Int

/-- The digits of a number. -/
def digitChars (d : Decimal) : List Char :=
  Nat.toDigits 10 d.digits

/-- The exponent of the leading digit. -/
def leading (d : Decimal) : Int :=
  d.digitChars.length - 1 + d.exponent

/-- `0.001`, `12.5` or `1200.0`. -/
def plain (d : Decimal) : List Char :=
  let ds := d.digitChars
  let before := d.leading + 1
  if 0 ≤ d.exponent then ds ++ List.replicate d.exponent.toNat '0' ++ ['.', '0']
  else if 0 < before then ds.take before.toNat ++ '.' :: ds.drop before.toNat
  else '0' :: '.' :: List.replicate (-before).toNat '0' ++ ds

/-- `1.25e+20` or `3e-7`: the sign of the exponent is always written. -/
def withExponent (d : Decimal) : List Char :=
  let mantissa :=
    match d.digitChars with
    | [] => []
    | [c] => [c]
    | c :: cs => c :: '.' :: cs
  let sign := if d.leading < 0 then '-' else '+'
  mantissa ++ 'e' :: sign :: Nat.toDigits 10 d.leading.natAbs

/-- The text of a number; zero is written plainly. -/
def Layout.render (layout : Layout) (negative : Bool) (d : Decimal) : String :=
  let digits :=
    if d.digits = 0 then ['0', '.', '0']
    else if layout.least ≤ d.leading && d.leading ≤ layout.most then d.plain
    else d.withExponent
  String.ofList (if negative then '-' :: digits else digits)

/-- The text of a binary64 number. -/
def Layout.renderFloat (layout : Layout) (x : Float) : String :=
  let bits := x.toBits
  layout.render (Nat.pow 2 63 ≤ bits.toNat) (ofBinary (Binary.ofBits bits))

end Findings.Decimal
