/-!
# Readers

A document may come from a reader, which is asked for one byte after another. Each time it answers
with the next byte or tells why it has none. An interruption is no fault of the source: the reader
is asked again at once, and nobody hears of it. Any other problem is told to whoever asked, and does
not keep the reader from answering again later.

A `Stream` is what is heard of a reader: the bytes up to the first failure, that failure, and what
is heard by those who ask on after it.
-/

namespace Findings.Json

/-- Why a reader has no byte to give. -/
inductive ReadProblem where
  /-- It was disturbed before it could answer. -/
  | interrupted
  | failed (reason : String)
  deriving DecidableEq

/-- What a reader answers when it is asked for a byte. -/
inductive Answer where
  | byte (b : UInt8)
  | problem (p : ReadProblem)
  deriving DecidableEq

/-- What is heard of a reader. -/
inductive Heard where
  | byte (b : UInt8)
  | failure (reason : String)
  deriving DecidableEq

/-- What is heard of an answer. After an interruption the reader is asked again. -/
def Answer.heard? : Answer → Option Heard
  | byte b => some (.byte b)
  | problem .interrupted => none
  | problem (.failed reason) => some (.failure reason)

/-- The byte that is heard, if it is one. -/
def Heard.byte? : Heard → Option UInt8
  | byte b => some b
  | failure _ => none

/-- A stream of bytes, and how it breaks off after them, if it does. -/
structure Stream where
  bytes : List UInt8
  failure : Option String := none
  /-- What is heard by those who ask on after the failure. -/
  later : List Heard := []
  deriving DecidableEq

namespace Stream

/-- The stream that delivers a byte more, before the others. -/
def cons (b : UInt8) (s : Stream) : Stream :=
  { s with bytes := b :: s.bytes }

/-- The stream of which this is heard, and then the end. -/
def ofHeard : List Heard → Stream
  | [] => { bytes := [] }
  | .byte b :: hs => (ofHeard hs).cons b
  | .failure reason :: hs => { bytes := [], failure := some reason, later := hs }

/-- The stream of a reader that gives these answers and is then at its end. -/
def ofAnswers (answers : List Answer) : Stream :=
  ofHeard (answers.filterMap Answer.heard?)

/-- All bytes that a stream delivers, also those after a failure. -/
def delivered (s : Stream) : List UInt8 :=
  s.bytes ++ s.later.filterMap Heard.byte?

@[simp] theorem delivered_mk (bytes : List UInt8) (failure : Option String) :
    delivered { bytes, failure } = bytes :=
  List.append_nil bytes

/-- No byte is lost. -/
theorem delivered_ofHeard (hs : List Heard) :
    (ofHeard hs).delivered = hs.filterMap Heard.byte? := by
  induction hs with
  | nil => rfl
  | cons h hs ih =>
    cases h with
    | byte b => exact congrArg (b :: ·) ih
    | failure reason => rfl

theorem later_ofHeard_suffix (hs : List Heard) : (ofHeard hs).later <:+ hs := by
  induction hs with
  | nil => exact List.suffix_refl _
  | cons h hs ih =>
    cases h with
    | byte b => exact ih.trans (List.suffix_cons _ hs)
    | failure reason => exact List.suffix_cons _ hs

/-- An interruption changes nothing, wherever it comes. -/
theorem ofAnswers_interrupted (before after : List Answer) :
    ofAnswers (before ++ .problem .interrupted :: after) = ofAnswers (before ++ after) := by
  unfold ofAnswers
  rw [List.filterMap_append, List.filterMap_append, List.filterMap_cons_none rfl]

/-- A reader that fails at some time has a stream that breaks off. -/
theorem failure_ofAnswers_ne_none (before after : List Answer) (reason : String) :
    (ofAnswers (before ++ .problem (.failed reason) :: after)).failure ≠ none := by
  induction before with
  | nil => exact Option.some_ne_none reason
  | cons a before ih =>
    match a with
    | .byte b => exact ih
    | .problem .interrupted => exact ih
    | .problem (.failed reason') => exact Option.some_ne_none reason'

end Stream

end Findings.Json
