import Findings.Report.Decoding
import Findings.Report.Encoding

/-!
# Editing a report

A report can be built and changed step by step. Files and findings are named by their index, counted
from zero. A step either changes the report and has an answer, or says why it cannot be done and
changes nothing. Indices are looked at before anything else, in the order in which a step names
them.
-/

namespace Findings

/-- A finding whose severity is given by its code, at the first position unless one is given. -/
def Finding.ofCode (rule text : String) (code : Int) (position : Option (UInt32 × UInt32)) :
    Except Draft.Problem Finding := do
  let severity ← Draft.severityOf code
  let f : Finding := { rule, severity, text }
  match position with
  | some (line, column) => return f.moveTo line column
  | none => return f

/-- A change of one part of a finding. -/
inductive PartEdit where
  | rule (value : String)
  | text (value : String)
  | severity (code : Int)

/-- The finding with one part changed. -/
def PartEdit.apply (f : Finding) : PartEdit → Except Draft.Problem Finding
  | rule value => .ok { f with rule := value }
  | text value => .ok { f with text := value }
  | severity code => do return { f with severity := ← Draft.severityOf code }

/-- A step of editing. -/
inductive Edit where
  /-- Adds a file without findings. -/
  | addFile (path : String)
  | addFinding (file : Nat) (rule text : String) (code : Int) (position : Option (UInt32 × UInt32))
  | moveFinding (file finding : Nat) (line column : UInt32)
  | renameFile (file : Nat) (path : String)
  | editFinding (file finding : Nat) (part : PartEdit)
  | dropFile (file : Nat)
  | dropFinding (file finding : Nat)
  /-- Takes a file out and puts it back so that its index is `target`. -/
  | moveFile (source target : Nat)
  /-- Adds the files of a document. -/
  | load (document : String)
  /-- Writes the report and reads it back. -/
  | roundTrip

namespace Edit

/-- What an index counts. -/
inductive Subject where
  | file
  | finding
  | source
  | target
  deriving DecidableEq

/-- Why a step cannot be done. -/
inductive Problem where
  | noSuch (subject : Subject)
  | draft (problem : Draft.Problem)
  | document (refusal : Refusal)

/-- The answer of a step. -/
inductive Answer where
  | nothing
  | count (n : Nat)
  | truth (b : Bool)
  | severity (s : Severity)
  /-- What was removed, as a document. -/
  | removed (document : String)
  /-- The report as a document, and whether it is read back unchanged. -/
  | roundTrip (document : String) (equal : Bool)

/-- The item at an index. -/
def item (subject : Subject) (l : List α) (i : Nat) : Except Problem α :=
  match l[i]? with
  | some a => .ok a
  | none => .error (.noSuch subject)

/-- Takes over the verdict of a check. -/
def checked : Except Draft.Problem α → Except Problem α :=
  Except.mapError .draft

/-- The report that a document holds. -/
def loaded (document : String) : Except Problem Report :=
  (Report.ofText document).mapError .document

/-- What a step makes of a report, and its answer. -/
def apply (r : Report) : Edit → Except Problem (Report × Answer)
  | addFile path => return (r ++ [{ path }], .count r.length)
  | addFinding file rule text code position => do
    let target ← item .file r file
    let f ← checked (Finding.ofCode rule text code position)
    return (r.set file { target with findings := target.findings ++ [f] }, .truth f.isError)
  | moveFinding file finding line column => do
    let target ← item .file r file
    let f ← item .finding target.findings finding
    let moved := f.moveTo line column
    return (r.set file { target with findings := target.findings.set finding moved },
      .truth (moved == f))
  | renameFile file path => do
    let target ← item .file r file
    return (r.set file { target with path }, .nothing)
  | editFinding file finding part => do
    let target ← item .file r file
    let f ← item .finding target.findings finding
    let f' ← checked (part.apply f)
    return (r.set file { target with findings := target.findings.set finding f' },
      .severity f'.severity)
  | dropFile file => do
    let target ← item .file r file
    return (r.eraseIdx file, .removed target.toJson)
  | dropFinding file finding => do
    let target ← item .file r file
    let f ← item .finding target.findings finding
    return (r.set file { target with findings := target.findings.eraseIdx finding },
      .removed f.toJson)
  | moveFile source target => do
    let moved ← item .source r source
    let _ ← item .target r target
    return ((r.eraseIdx source).insertIdx target moved, .nothing)
  | load document => do
    let more ← loaded document
    return (r ++ more, .count more.length)
  | roundTrip => do
    let document := r.toJson
    return (r, .roundTrip document ((← loaded document) == r))

end Edit

end Findings
