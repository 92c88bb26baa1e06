import Findings.Json.Numeral
import Findings.Decimal.Layout
import Findings.Decimal.Scaled

/-!
# Numbers

What number a numeral stands for. A numeral without point and exponent is an integer if a word of 64
bits holds it: an unsigned word for a plain numeral, a signed one for a negative one. Every other
numeral is a binary64 number, and so is `-0`, because no integer has its sign.

The digits of a numeral are taken in as long as the number they form stays below `2 ^ 64`
(`Numeral.absorb`). Digits before the point that find no room still count as places; those after it
do not.
-/

namespace Findings.Json

/-- What a numeral stands for. -/
inductive Number where
  | integer (n : Int)
  | real (x : Float)

namespace Numeral

/-- Takes in digits as long as there is room, and says which find none. -/
def absorb (n : Nat) : List Nat → Nat × List Nat
  | [] => (n, [])
  | d :: ds => if n * 10 + d < UInt64.size then absorb (n * 10 + d) ds else (n, d :: ds)

/-- The digits that are taken in, as one number, and the power of ten that it is to be multiplied
by. -/
def parts (n : Numeral) : Nat × Int :=
  let (whole, left) := absorb 0 n.whole
  let (significand, left') := absorb whole n.fraction
  (significand, n.exponent.getD 0 + left.length - (n.fraction.length - left'.length : Nat))

/-- Whether a numeral has neither point nor exponent and its digits all find room. -/
def isWhole (n : Numeral) : Bool :=
  n.fraction.isEmpty && n.exponent.isNone && (absorb 0 n.whole).2.isEmpty

/-- The number of a numeral, or nothing if it is larger than all binary64 numbers. -/
def number? (n : Numeral) : Option Number :=
  let (significand, exponent) := n.parts
  if n.isWhole && !n.negative then some (.integer significand)
  else if n.isWhole && significand ≠ 0 && significand ≤ Int64.size / 2 then
    some (.integer (-significand))
  else (Decimal.scaled significand exponent).map fun x => .real (if n.negative then -x else x)

end Numeral

/-- Binary64 numbers are told plainly from 0.00001 up to below 10 ^ 16. -/
def Number.layout : Decimal.Layout where
  least := -5
  most := 15

/-- A number as a kind of value that a document holds. -/
def Number.found : Number → Found
  | integer n => .integer n
  | real x => .real (Number.layout.renderFloat x)

namespace Decoder

variable {ε : Type}

/-- Reads a number whose first byte `b` is used up. -/
def number (b : UInt8) : Decoder ε Number := do
  let n ← numeral .valued b
  match n.number? with
  | some x => return x
  | none => failHere .numberOutOfRange

end Decoder

end Findings.Json
