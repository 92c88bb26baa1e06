import Findings.Report.Basic
import Findings.Json.Writer

/-!
# Findings as documents

A finding is written as an object of its five parts, a file report as an object of its path and its
findings, and a report as the sequence of its file reports.
-/

namespace Findings

open Json

/-- A finding as a document. -/
def Finding.written (f : Finding) : List Char :=
  Writer.object [
    ("ruleId", Writer.text f.rule),
    ("severity", Writer.natural f.severity.code),
    ("message", Writer.text f.text),
    ("line", Writer.natural f.line.toNat),
    ("column", Writer.natural f.column.toNat)]

/-- A file report as a document. -/
def FileReport.written (r : FileReport) : List Char :=
  Writer.object [
    ("filePath", Writer.text r.path),
    ("messages", Writer.sequence (r.findings.map Finding.written))]

/-- A severity as a document. -/
def Severity.toJson (s : Severity) : String :=
  String.ofList (Writer.natural s.code)

def Finding.toJson (f : Finding) : String :=
  String.ofList f.written

def FileReport.toJson (r : FileReport) : String :=
  String.ofList r.written

/-- A whole report as a document. -/
def Report.toJson (r : Report) : String :=
  String.ofList (Writer.sequence (r.map FileReport.written))

end Findings
