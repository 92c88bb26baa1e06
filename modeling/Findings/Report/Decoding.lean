import Findings.Report.Draft
import Findings.Json.Record
import Findings.Json.Document

/-!
# Findings from documents

A finding is decoded as a draft and then checked. The check's refusal has no place of its own: it
gets the one at which the sequence around the finding was left.
-/

namespace Findings

open Json

/-- A document that is no report. -/
abbrev Refusal := Diagnostic Draft.Problem

/-- The wording of a refusal. -/
def Refusal.text (r : Refusal) : String :=
  r.message Draft.Problem.message

/-! ## Severities -/

/-- Reads a severity by its code. -/
def Severity.decoder : Decoder Draft.Problem Severity := do
  match Draft.severityOf (← Decoder.signed) with
  | .ok s => return s
  | .error p => Decoder.failAnywhere (.refused p)

/-! ## Findings -/

/-- The fields of a finding. A sequence must hold them all but the last; an object need not, and it
is the check that refuses a draft without them. -/
def Draft.record : Record Draft.Problem Draft where
  title := "RawMessage"
  fields := [
    { key := "ruleId", absence := .fromObject
      read := fun d => do return { d with rule := ← Decoder.optional Decoder.string } },
    { key := "severity", absence := .fromObject
      read := fun d => do return { d with severity := ← Decoder.optional Decoder.signed } },
    { key := "message", absence := .fromObject
      read := fun d => do return { d with text := ← Decoder.optional Decoder.string } },
    { key := "line", absence := .fromObject
      read := fun d => do return { d with line := ← Decoder.optional Decoder.unsigned } },
    { key := "column", absence := .fromObject
      read := fun d => do return { d with column := ← Decoder.optional Decoder.unsigned } },
    { key := "fatal", absence := .anywhere
      read := fun d => do return { d with fatal := ← Decoder.boolean } }]

/-- Reads a finding. -/
def Finding.decoder : Decoder Draft.Problem Finding := do
  match (← Draft.record.decoder {}).check with
  | .ok f => return f
  | .error p => Decoder.failAnywhere (.refused p)

/-! ## File reports -/

/-- The fields of a file report. -/
def FileReport.record : Record Draft.Problem FileReport where
  title := "FileReport"
  fields := [
    { key := "filePath", absence := .never
      read := fun r => do return { r with path := ← Decoder.string } },
    { key := "messages", absence := .anywhere
      read := fun r => do return { r with findings := ← Decoder.sequence Finding.decoder } }]

/-- Reads a file report. -/
def FileReport.decoder : Decoder Draft.Problem FileReport :=
  FileReport.record.decoder { path := "" }

/-- Reads a whole report. -/
def Report.decoder : Decoder Draft.Problem Report :=
  Decoder.sequence FileReport.decoder

/-- The report that a text holds. -/
def Report.ofText (text : String) : Except Refusal Report :=
  Report.decoder.decodeText text

/-- The report that a stream holds. -/
def Report.ofStream (s : Stream) : Except Refusal Report :=
  Report.decoder.decodeStream s

end Findings
