import Findings.Json.Position

/-!
# What can be wrong with a document

A fault is a cause together with the place where it was seen, if it has one yet. Causes are kept
apart from their wording, and a check that is not about JSON itself brings a cause of its own type
`ε` along.

## Places

A document comes as one text or as a stream, and the two count differently. A reader of a text knows
what it has used up, and counts the byte it looks at only when that byte is the fault. A reader of a
stream counts every byte it has pulled out of the stream, used up or not. A `Place` holds what both
need, so that one decoder serves both, and it shows that the two never differ by more than one byte.
-/

namespace Findings.Json

/-! ## Causes -/

/-- What kind of value a document holds. -/
inductive Found where
  | null
  | boolean (b : Bool)
  | integer (n : Int)
  /-- A number with its digits as they are told. -/
  | real (digits : String)
  /-- A text, quoted as it is told. -/
  | text (quoted : String)
  | sequence
  | map
  deriving DecidableEq

/-- The words for a value that a document holds. -/
def Found.describe : Found → String
  | null => "null"
  | boolean b => "boolean `" ++ (if b then "true" else "false") ++ "`"
  | integer n => "integer `" ++ toString n ++ "`"
  | real digits => "floating point `" ++ digits ++ "`"
  | text quoted => "string " ++ quoted
  | sequence => "sequence"
  | map => "map"

/-- What kind of value is wanted. -/
inductive Expected where
  | text
  | boolean
  /-- An integer that a signed word of 64 bits holds. -/
  | signed
  /-- An integer that an unsigned word of 32 bits holds. -/
  | unsigned
  | sequence
  | record (title : String)
  deriving DecidableEq

/-- The words for a value that is wanted. -/
def Expected.describe : Expected → String
  | text => "a string"
  | boolean => "a boolean"
  | signed => "i64"
  | unsigned => "u32"
  | sequence => "a sequence"
  | record title => "struct " ++ title

/-- Why a document is refused. -/
inductive Cause (ε : Type) where
  /-- The stream broke off. -/
  | unreadable (reason : String)
  | endInValue
  | endInString
  | endInSequence
  | endInObject
  | badWord
  | noValue
  | noCommaOrBracket
  | noCommaOrBrace
  | noColon
  | noKey
  | trailingComma
  | trailingCharacters
  | badNumber
  | numberOutOfRange
  | controlCharacter
  | badEscape
  | loneSurrogate
  | brokenSurrogatePair
  | badUnicode
  | wrongType (found : Found) (expected : Expected)
  | wrongValue (n : Int) (expected : Expected)
  | wrongLength (length : Nat) (title : String) (fields : Nat)
  | duplicateField (key : String)
  | missingField (key : String)
  /-- A check of what was read failed. -/
  | refused (reason : ε)
  deriving DecidableEq

/-- The wording of a cause, given the wording of the checks' own reasons. -/
def Cause.message (wording : ε → String) : Cause ε → String
  | unreadable reason => reason
  | endInValue => "EOF while parsing a value"
  | endInString => "EOF while parsing a string"
  | endInSequence => "EOF while parsing a list"
  | endInObject => "EOF while parsing an object"
  | badWord => "expected ident"
  | noValue => "expected value"
  | noCommaOrBracket => "expected `,` or `]`"
  | noCommaOrBrace => "expected `,` or `\x7d`"
  | noColon => "expected `:`"
  | noKey => "key must be a string"
  | trailingComma => "trailing comma"
  | trailingCharacters => "trailing characters"
  | badNumber => "invalid number"
  | numberOutOfRange => "number out of range"
  | controlCharacter => "control character (\\u0000-\\u001F) found while parsing a string"
  | badEscape => "invalid escape"
  | loneSurrogate => "lone leading surrogate in hex escape"
  | brokenSurrogatePair => "unexpected end of hex escape"
  | badUnicode => "invalid unicode code point"
  | wrongType found expected =>
    "invalid type: " ++ found.describe ++ ", expected " ++ expected.describe
  | wrongValue n expected =>
    "invalid value: " ++ (Found.integer n).describe ++ ", expected " ++ expected.describe
  | wrongLength length title fields =>
    "invalid length " ++ toString length ++ ", expected " ++ (Expected.record title).describe
      ++ " with " ++ toString fields ++ " elements"
  | duplicateField key => "duplicate field `" ++ key ++ "`"
  | missingField key => "missing field `" ++ key ++ "`"
  | refused reason => wording reason

/-! ## Places and faults -/

/-- Where a fault was seen. -/
structure Place where
  /-- How many bytes lie before it, as a reader of a text counts. -/
  offset : Nat
  /-- Whether a reader of a stream has pulled one byte more. -/
  ahead : Bool
  /-- How many columns the fault lies before that. -/
  back : Nat := 0
  deriving DecidableEq

/-- A cause, and its place once it has one. -/
structure Fault (ε : Type) where
  cause : Cause ε
  place : Option Place
  deriving DecidableEq

namespace Fault

/-- Gives a fault its place, unless it has one. -/
def placeAt (p : Place) (f : Fault ε) : Fault ε :=
  { f with place := some (f.place.getD p) }

@[simp] theorem cause_placeAt (p : Place) (f : Fault ε) : (f.placeAt p).cause = f.cause := rfl

end Fault

/-! ## What the reader is told -/

/-- How a document comes. -/
inductive Source where
  | text
  | stream
  deriving DecidableEq

/-- The number of bytes before a place, as a reader of `source` counts. -/
def Place.count (source : Source) (p : Place) : Nat :=
  match source with
  | .text => p.offset
  | .stream => if p.ahead then p.offset + 1 else p.offset

/-- The position of a place in a document. -/
def Place.position (source : Source) (bytes : List UInt8) (p : Place) : Position :=
  let reached := Position.after (bytes.take (p.count source))
  { reached with column := reached.column - p.back }

/-- A cause with its position in the document. -/
structure Diagnostic (ε : Type) where
  cause : Cause ε
  position : Option Position
  deriving DecidableEq

namespace Diagnostic

/-- A fault as a reader of `source` tells it. -/
def ofFault (source : Source) (bytes : List UInt8) (f : Fault ε) : Diagnostic ε where
  cause := f.cause
  position := f.place.map (·.position source bytes)

/-- The wording of a diagnostic. -/
def message (wording : ε → String) (d : Diagnostic ε) : String :=
  d.cause.message wording ++
    match d.position with
    | some p => " at line " ++ toString p.line ++ " column " ++ toString p.column
    | none => ""

end Diagnostic

end Findings.Json
