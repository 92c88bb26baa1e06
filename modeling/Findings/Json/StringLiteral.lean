import Findings.Json.Token
import Findings.Text.Utf8

/-!
# Texts between quotes

A text stands between double quotes. A backslash begins an escape; every other byte from 0x20 on
stands for itself. Bytes become characters only at the closing quote, so escapes and raw bytes
together must be UTF-8.

An escape by number names one unit of UTF-16. A character above 0xFFFF takes two of them, a leading
one in 0xD800..0xDBFF and a trailing one in 0xDC00..0xDFFF, and neither may stand alone. A text that
is passed over is read by the same bytes, but its units are not paired and its bytes need not be
UTF-8.
-/

namespace Findings.Json

/-- The value of a hexadecimal digit. -/
def hexValue? (b : UInt8) : Option Nat :=
  if '0'.toUInt8 ≤ b && b ≤ '9'.toUInt8 then some (b - '0'.toUInt8).toNat
  else if 'a'.toUInt8 ≤ b && b ≤ 'f'.toUInt8 then some ((b - 'a'.toUInt8).toNat + 10)
  else if 'A'.toUInt8 ≤ b && b ≤ 'F'.toUInt8 then some ((b - 'A'.toUInt8).toNat + 10)
  else none

/-- The number that four hexadecimal digits write. -/
def hexNumber? (a b c d : UInt8) : Option Nat := do
  return (((← hexValue? a) * 16 + (← hexValue? b)) * 16 + (← hexValue? c)) * 16 + (← hexValue? d)

/-- The character that a letter after a backslash stands for, except for `u`. -/
def escaped? (b : UInt8) : Option Char :=
  if b = '"'.toUInt8 then some '"'
  else if b = '\\'.toUInt8 then some '\\'
  else if b = '/'.toUInt8 then some '/'
  else if b = 'b'.toUInt8 then some '\x08'
  else if b = 'f'.toUInt8 then some '\x0c'
  else if b = 'n'.toUInt8 then some '\n'
  else if b = 'r'.toUInt8 then some '\r'
  else if b = 't'.toUInt8 then some '\t'
  else none

/-- A unit of UTF-16 that begins a pair. -/
def isLeading (n : Nat) : Bool :=
  0xD800 ≤ n && n ≤ 0xDBFF

/-- A unit of UTF-16 that ends a pair. -/
def isTrailing (n : Nat) : Bool :=
  0xDC00 ≤ n && n ≤ 0xDFFF

/-- The character of a pair. -/
def pairChar (leading trailing : Nat) : Char :=
  Char.ofNat (0x10000 + (leading - 0xD800) * 0x400 + (trailing - 0xDC00))

/-- Whether a byte may not stand for itself in a text. -/
def isControl (b : UInt8) : Bool :=
  b < 0x20

namespace Decoder

variable {ε : Type}

/-! ## Escapes -/

/-- Reads the next byte of a text. -/
def textByte : Decoder ε UInt8 := do
  match ← next with
  | some b => return b
  | none => failHere .endInString

/-- Reads four hexadecimal digits. All four bytes are read before they are looked at. -/
def hexQuad : Decoder ε Nat := do
  let a ← textByte
  let b ← textByte
  let c ← textByte
  let d ← textByte
  match hexNumber? a b c d with
  | some n => return n
  | none => failHere .badEscape

/-- Reads one byte of what joins a pair. -/
def joint (b : UInt8) : Decoder ε Unit := do
  match ← peek with
  | none => failHere .endInString
  | some x =>
    eat
    if x = b then return ()
    else failHere .brokenSurrogatePair

/-- Reads a character by number, after the `u`. -/
def numberedChar : Decoder ε Char := do
  let n ← hexQuad
  if isTrailing n then failHere .loneSurrogate
  else if isLeading n then
    joint '\\'.toUInt8
    joint 'u'.toUInt8
    let m ← hexQuad
    if isTrailing m then return pairChar n m
    else failHere .loneSurrogate
  else return Char.ofNat n

/-- Reads an escape, after the backslash. -/
def escape : Decoder ε Char := do
  let b ← textByte
  if b = 'u'.toUInt8 then numberedChar
  else
    match escaped? b with
    | some c => return c
    | none => failHere .badEscape

/-! ## Texts -/

/-- Reads the bytes of a text and its closing quote. -/
def textBytes : Decoder ε (List UInt8) :=
  sweep (fun _ => failHere .endInString)
    (fun done b =>
      if b = '"'.toUInt8 then
        .leave (do
          eat
          return done.reverse)
      else if b = '\\'.toUInt8 then
        .take (do
          let c ← escape
          return (Text.Utf8.encodeChar c).reverse ++ done)
      else if isControl b then
        .leave (do
          eat
          failHere .controlCharacter)
      else .take (pure (b :: done)))
    []

/-- Reads a text, after its opening quote. -/
def text : Decoder ε String := do
  let bytes ← textBytes
  match Text.Utf8.decode bytes with
  | (cs, []) => return String.ofList cs
  | (_, unsound) => failHere .badUnicode unsound.length

/-! ## Texts that are passed over -/

/-- Passes over an escape, after the backslash. -/
def skipEscape : Decoder ε Unit := do
  let b ← textByte
  if b = 'u'.toUInt8 then
    let _ ← hexQuad
    return ()
  else if (escaped? b).isSome then return ()
  else failHere .badEscape

/-- Passes over a text, after its opening quote. -/
def skipText : Decoder ε Unit :=
  sweep (fun _ => failHere .endInString)
    (fun _ b =>
      if b = '"'.toUInt8 then .leave eat
      else if b = '\\'.toUInt8 then .take skipEscape
      else if isControl b then .leave (failHere .controlCharacter)
      else .take (pure ()))
    ()

end Decoder

end Findings.Json
