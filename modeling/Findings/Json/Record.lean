import Findings.Json.Skip
import Findings.Json.Value

/-!
# Records

A record is a value with named fields. A document gives it as an object, whose entries may come in
any order and among others that are passed over, or as a sequence of the fields in their order. A
field that is read changes a state of type `σ`, which holds what is known of the record so far.
-/

namespace Findings.Json

/-- Where a field may be left out. -/
inductive Absence where
  /-- Nowhere. -/
  | never
  /-- In an object. -/
  | fromObject
  /-- In an object and at the end of a sequence. -/
  | anywhere
  deriving DecidableEq

/-- A field of a record. -/
structure Field (ε σ : Type) where
  key : String
  absence : Absence
  /-- Reads the field into the state. -/
  read : σ → Decoder ε σ

/-- The fields of a record in their order. -/
structure Record (ε σ : Type) where
  /-- What the record is called in faults. -/
  title : String
  fields : List (Field ε σ)

namespace Record

variable {ε σ : Type}

/-- The field that a key names. -/
def field? (r : Record ε σ) (key : String) : Option (Field ε σ) :=
  r.fields.find? (·.key == key)

/-- What is known while the entries of an object are read. -/
structure Progress (σ : Type) where
  /-- The keys of the fields that were given. -/
  given : List String
  state : σ

/-- Reads an entry, from the quote of its key on. A field that is given twice is refused before its
value is read. -/
def entry (r : Record ε σ) (p : Progress σ) : Decoder ε (Progress σ) := do
  Decoder.eat
  let key ← Decoder.text
  match r.field? key with
  | none => do
    Decoder.colon
    Decoder.skip
    return p
  | some f =>
    if key ∈ p.given then Decoder.failAnywhere (.duplicateField key)
    else
      Decoder.colon
      return { given := key :: p.given, state := ← f.read p.state }

/-- Reads the entries of an object, up to its closing brace. -/
def fromObject (r : Record ε σ) (s : σ) : Decoder ε σ := do
  let p ← Decoder.entries r.entry { given := [], state := s }
  match r.fields.find? fun f => f.absence == .never && f.key ∉ p.given with
  | some f => Decoder.failAnywhere (.missingField f.key)
  | none => return p.state

/-- Reads the fields `fields` from the elements of a sequence of which `read` are read, up to its
closing bracket. -/
def fromElements (r : Record ε σ) : List (Field ε σ) → (read : Nat) → σ → Decoder ε σ
  | [], _, s => pure s
  | f :: fs, read, s => do
    if ← Decoder.nextElement (read == 0) then r.fromElements fs (read + 1) (← f.read s)
    else if f.absence = .anywhere then r.fromElements fs (read + 1) s
    else Decoder.failAnywhere (.wrongLength read r.title r.fields.length)

/-- Reads a record, of which `s` is known before. -/
def decoder (r : Record ε σ) (s : σ) : Decoder ε σ :=
  Decoder.value fun b =>
    if b = '['.toUInt8 then do
      Decoder.eat
      Decoder.closing (r.fromElements r.fields 0 s) Decoder.endSequence
    else if b = '\x7b'.toUInt8 then do
      Decoder.eat
      Decoder.closing (r.fromObject s) Decoder.endObject
    else Decoder.mismatch (.record r.title) b

end Record

end Findings.Json
