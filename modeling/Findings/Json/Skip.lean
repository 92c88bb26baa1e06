import Findings.Json.Container
import Findings.Json.Numeral

/-!
# Values that are passed over

A value that nobody asks for may be anything, nested to any depth. It is passed over by a machine
that takes one byte a turn and keeps the brackets that are open, so that depth costs no recursion.
Nothing is kept of the value, and no more is asked of it than that its end can be found: any number
will do, and any text whose escapes are whole.
-/

namespace Findings.Json

/-- The two kinds of container. -/
inductive Bracket where
  | square
  | curly
  deriving DecidableEq

namespace Bracket

/-- The byte that closes a container. -/
def close : Bracket → UInt8
  | square => ']'.toUInt8
  | curly => '\x7d'.toUInt8

/-- What is wrong with a document that ends inside a container. -/
def cut : Bracket → Cause ε
  | square => .endInSequence
  | curly => .endInObject

/-- What is wrong where neither a comma nor the end of the container follows a value. -/
def noComma : Bracket → Cause ε
  | square => .noCommaOrBracket
  | curly => .noCommaOrBrace

end Bracket

/-- What is to come while a value is passed over; the innermost open bracket comes first. -/
inductive Skipping where
  /-- A value inside the open brackets. -/
  | value (brackets : List Bracket)
  /-- What follows a bracket that has just been opened. -/
  | opened (top : Bracket) (below : List Bracket)
  /-- A key of an object. -/
  | key (below : List Bracket)
  /-- What follows a value in a container. -/
  | after (top : Bracket) (below : List Bracket)

namespace Decoder

variable {ε : Type}

/-- Completes a value with `d`. With no bracket open that was all. -/
def completeValue (brackets : List Bracket) (d : Decoder ε Unit) : Turn ε Skipping Unit :=
  match brackets with
  | [] => .leave (do
    eat
    d)
  | top :: below => .take (do
    d
    return .after top below)

/-- The turn at the first byte of a value. -/
def valueTurn (brackets : List Bracket) (b : UInt8) : Turn ε Skipping Unit :=
  if b = 'n'.toUInt8 then completeValue brackets (word nullTail)
  else if b = 't'.toUInt8 then completeValue brackets (word trueTail)
  else if b = 'f'.toUInt8 then completeValue brackets (word falseTail)
  else if beginsNumeral b then
    completeValue brackets (do
      let _ ← numeral .skipped b
      return ())
  else if b = '"'.toUInt8 then completeValue brackets skipText
  else if b = '['.toUInt8 then .take (pure (.opened .square brackets))
  else if b = '\x7b'.toUInt8 then .take (pure (.opened .curly brackets))
  else .leave (failNext .noValue)

/-- The turn at the first byte of a key. -/
def keyTurn (below : List Bracket) (b : UInt8) : Turn ε Skipping Unit :=
  if b = '"'.toUInt8 then
    .take (do
      skipText
      colon
      return .value (.curly :: below))
  else .leave (failNext .noKey)

/-- The turn of the machine at a byte; white space changes nothing. -/
def skipTurn (s : Skipping) (b : UInt8) : Turn ε Skipping Unit :=
  if isBlank b then .take (pure s)
  else
    match s with
    | .value brackets => valueTurn brackets b
    | .opened top below =>
      if b = top.close then completeValue below (pure ())
      else
        match top with
        | .square => valueTurn (.square :: below) b
        | .curly => keyTurn below b
    | .key below => keyTurn below b
    | .after top below =>
      if b = top.close then completeValue below (pure ())
      else if b = ','.toUInt8 then
        match top with
        | .square => .take (pure (.value (.square :: below)))
        | .curly => .take (pure (.key below))
      else .leave (failNext top.noComma)

/-- What is wrong with a document that ends while a value is passed over. -/
def skipCut : Skipping → Cause ε
  | .value _ => .endInValue
  | .opened top _ => top.cut
  | .key _ => Bracket.cut .curly
  | .after top _ => top.cut

/-- Passes over a value. -/
def skip : Decoder ε Unit :=
  sweep (fun s => failNext (skipCut s)) skipTurn (.value [])

end Decoder

end Findings.Json
