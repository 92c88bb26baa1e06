import Findings.Json.Token

/-!
# Numerals

A numeral is the digits of a number as a document has them, before anybody asks what number they
are. The same reader serves a number that is wanted and one that is passed over; they differ in what
is wrong with a numeral that the document cuts off, and in that nobody minds the size of a number
that is passed over.

## Grammar

An optional minus; `0`, or digits that do not begin with `0`; optionally a point and at least one
digit; optionally `e` or `E`, a sign or none, and at least one digit.
-/

namespace Findings.Json

/-- A number as it is written. -/
structure Numeral where
  negative : Bool
  /-- The digits before the point. -/
  whole : List Nat
  /-- The digits after the point; none without a point. -/
  fraction : List Nat
  /-- What is written after the `e`. -/
  exponent : Option Int
  deriving DecidableEq

/-- What becomes of a numeral. -/
inductive Use where
  /-- Its number is wanted. -/
  | valued
  /-- It is passed over. -/
  | skipped
  deriving DecidableEq

/-- What is wrong with a numeral that the end of the document cuts off. -/
def Use.cut : Use → Cause ε
  | valued => .endInValue
  | skipped => .badNumber

/-- The greatest exponent that is read to its end if the number is wanted. -/
def greatestExponent : Nat := Int32.size / 2 - 1

/-- Whether a numeral can begin with `b`. -/
def beginsNumeral (b : UInt8) : Bool :=
  b == '-'.toUInt8 || isDigit b

/-- The value of a digit. -/
def digitValue (b : UInt8) : Nat :=
  (b - '0'.toUInt8).toNat

namespace Decoder

variable {ε : Type}

/-- Reads digits, as many as there are, after those of `done`, of which the last comes first. -/
def digits (done : List Nat) : Decoder ε (List Nat) :=
  sweep (fun ds => pure ds.reverse)
    (fun ds b => if isDigit b then .take (pure (digitValue b :: ds)) else .leave (pure ds.reverse))
    done

/-- Reads the digits before the point, of which `first` is the first, if it is a digit. -/
def wholeDigits (use : Use) (first : Option UInt8) : Decoder ε (List Nat) :=
  match first with
  | none => failHere use.cut
  | some b =>
    if b = '0'.toUInt8 then do
      match ← peek with
      | some b' => if isDigit b' then failNext .badNumber else return [0]
      | none => return [0]
    else if isDigit b then digits [digitValue b]
    else failHere .badNumber

/-- Reads the point and the digits after it, if the point is there. -/
def fractionDigits (use : Use) : Decoder ε (List Nat) := do
  if (← peek) = some '.'.toUInt8 then
    eat
    let ds ← digits []
    if ds.isEmpty then
      match ← peek with
      | none => failNext use.cut
      | some _ => failNext .badNumber
    else return ds
  else return []

/-- Reads the further digits of an exponent. If a huge exponent makes the number too large, its
digits are not read to the end. -/
def exponentDigits (tooLarge : Bool) (first : Nat) : Decoder ε Nat :=
  sweep (fun n => pure n)
    (fun n b =>
      if isDigit b then
        let n' := n * 10 + digitValue b
        if tooLarge && greatestExponent < n' then
          .leave (do
            eat
            failHere .numberOutOfRange)
        else .take (pure n')
      else .leave (pure n))
    first

/-- Reads the exponent, if there is one. `zero` says that the digits before it are all zeros. -/
def exponentPart (use : Use) (zero : Bool) : Decoder ε (Option Int) := do
  match ← peek with
  | some b =>
    if b = 'e'.toUInt8 || b = 'E'.toUInt8 then
      eat
      let sign ← peek
      let negative := sign == some '-'.toUInt8
      if negative || sign == some '+'.toUInt8 then eat
      match ← next with
      | none => failHere use.cut
      | some d =>
        if isDigit d then
          let n ← exponentDigits (use = .valued && !zero && !negative) (digitValue d)
          return some (if negative then -n else n)
        else failHere .badNumber
    else return none
  | none => return none

/-- Reads a numeral whose first byte `b` is used up. -/
def numeral (use : Use) (b : UInt8) : Decoder ε Numeral := do
  let negative := b == '-'.toUInt8
  let whole ← wholeDigits use (← if negative then next else pure (some b))
  let fraction ← fractionDigits use
  let zero := whole.all (· == 0) && fraction.all (· == 0)
  let exponent ← exponentPart use zero
  return { negative, whole, fraction, exponent }

end Decoder

end Findings.Json
