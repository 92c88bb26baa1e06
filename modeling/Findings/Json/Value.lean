import Findings.Json.Container
import Findings.Json.Number
import Findings.Text.Quoted

/-!
# Values of a wanted type

A value of a wanted type begins after white space. A value of another type is read as far as it is
told in the fault: a word, a number or a text to its end, a container not at all. A fault inside a
value that has no place of its own gets the place where the value was left.
-/

namespace Findings.Json.Decoder

variable {ε α : Type}

/-- Reads a value whose first byte is known to `body`, which finds that byte not yet used up. -/
def value (body : UInt8 → Decoder ε α) : Decoder ε α := do
  match ← blank with
  | none => failNext .endInValue
  | some b => placed (body b)

/-- Refuses a value that begins with `b` and is not what is wanted. -/
def mismatch (expected : Expected) (b : UInt8) : Decoder ε α :=
  let wrong (found : Found) : Decoder ε α := failHere (.wrongType found expected)
  if b = 'n'.toUInt8 then do
    eat
    word nullTail
    wrong .null
  else if b = 't'.toUInt8 then do
    eat
    word trueTail
    wrong (.boolean true)
  else if b = 'f'.toUInt8 then do
    eat
    word falseTail
    wrong (.boolean false)
  else if beginsNumeral b then do
    eat
    wrong (← number b).found
  else if b = '"'.toUInt8 then do
    eat
    wrong (.text (Text.quoted (← text)))
  else if b = '['.toUInt8 then wrong .sequence
  else if b = '\x7b'.toUInt8 then wrong .map
  else failNext .noValue

/-- Reads a text. -/
def string : Decoder ε String :=
  value fun b =>
    if b = '"'.toUInt8 then do
      eat
      text
    else mismatch .text b

/-- Reads a truth value. -/
def boolean : Decoder ε Bool :=
  value fun b =>
    if b = 't'.toUInt8 then do
      eat
      word trueTail
      return true
    else if b = 'f'.toUInt8 then do
      eat
      word falseTail
      return false
    else mismatch .boolean b

/-- Reads an integer from `least` to `most`. -/
def integer (expected : Expected) (least most : Int) : Decoder ε Int :=
  value fun b =>
    if beginsNumeral b then do
      eat
      match ← number b with
      | .integer n =>
        if least ≤ n ∧ n ≤ most then return n
        else failHere (.wrongValue n expected)
      | .real x => failHere (.wrongType (Number.real x).found expected)
    else mismatch expected b

/-- Reads an integer that a signed word of 64 bits holds. -/
def signed : Decoder ε Int :=
  integer .signed Int64.minValue.toInt Int64.maxValue.toInt

/-- Reads an integer that an unsigned word of 32 bits holds. -/
def unsigned : Decoder ε UInt32 := do
  return .ofNat (← integer .unsigned 0 (UInt32.size - 1)).toNat

/-- Reads `null` or what `d` reads. -/
def optional (d : Decoder ε α) : Decoder ε (Option α) := do
  if (← blank) = some 'n'.toUInt8 then
    eat
    word nullTail
    return none
  else return some (← d)

/-- Reads a sequence. -/
def sequence (element : Decoder ε α) : Decoder ε (List α) :=
  value fun b =>
    if b = '['.toUInt8 then do
      eat
      closing (elements element) endSequence
    else mismatch .sequence b

end Findings.Json.Decoder
