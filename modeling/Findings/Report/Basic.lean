/-!
# Findings of a checker

A checker reads files and leaves findings: a rule, how severe it is, a text and a position. A
`FileReport` holds the findings of one file in the order in which they were made, and a report is a
list of file reports.

Main statements: a severity is read back from its code (`Severity.ofCode?_code`), no other number is
a code (`Severity.ofCode?_eq_some_iff`), and the errors and the warnings of a file are all its
findings (`FileReport.errorCount_add_warningCount`).
-/

namespace Findings

/-! ## Severity -/

/-- How severe a finding is. -/
inductive Severity where
  /-- It should be looked at. -/
  | warning
  /-- It must be mended. -/
  | error
  deriving DecidableEq

namespace Severity

/-- The word that stands for a severity in a report. -/
def word : Severity → String
  | warning => "warning"
  | error => "error"

/-- The number that stands for a severity in a document. -/
def code : Severity → Nat
  | warning => 1
  | error => 2

/-- The severity of a number; only the two codes have one. -/
def ofCode? (n : Int) : Option Severity :=
  if n = 1 then some warning else if n = 2 then some error else none

/-- Severities are ordered as their codes are. -/
instance : Ord Severity := ⟨fun a b => compare a.code b.code⟩

theorem ofCode?_eq_some_iff {n : Int} {s : Severity} : ofCode? n = some s ↔ n = s.code := by
  unfold ofCode?
  cases s with
  | warning =>
    simp only [code]
    split
    · simp_all
    · split <;> simp_all
  | error =>
    simp only [code]
    split
    · simp_all
    · split <;> simp_all

@[simp] theorem ofCode?_code (s : Severity) : ofCode? s.code = some s :=
  ofCode?_eq_some_iff.mpr rfl

end Severity

/-! ## One finding -/

/-- One finding. Lines and columns count from one and are kept as they come, zero included. -/
structure Finding where
  /-- The rule that was broken. -/
  rule : String
  severity : Severity
  /-- What the reader is told. -/
  text : String
  line : UInt32 := 1
  column : UInt32 := 1
  deriving DecidableEq

namespace Finding

/-- The same finding at another position. -/
def moveTo (f : Finding) (line column : UInt32) : Finding :=
  { f with line, column }

def isError (f : Finding) : Bool :=
  f.severity == .error

end Finding

/-! ## The findings of one file -/

/-- The findings of one file. -/
structure FileReport where
  path : String
  findings : List Finding := []
  deriving DecidableEq

namespace FileReport

/-- How many findings of a file have severity `s`. -/
def count (s : Severity) (r : FileReport) : Nat :=
  r.findings.countP (·.severity == s)

def errorCount (r : FileReport) : Nat :=
  r.count .error

def warningCount (r : FileReport) : Nat :=
  r.count .warning

def hasErrors (r : FileReport) : Bool :=
  r.findings.any Finding.isError

theorem errorCount_add_warningCount (r : FileReport) :
    r.errorCount + r.warningCount = r.findings.length := by
  obtain ⟨path, findings⟩ := r
  simp only [errorCount, warningCount, count]
  induction findings with
  | nil => rfl
  | cons f fs ih =>
    cases h : f.severity <;> simp [h] <;> omega

end FileReport

/-! ## Whole reports -/

/-- The files of a report in their order. -/
abbrev Report := List FileReport

namespace Report

/-- How many findings a report has. -/
def total (r : Report) : Nat :=
  r.foldr (fun f n => f.findings.length + n) 0

/-- Whether some finding of a report is an error. -/
def hasErrors (r : Report) : Bool :=
  r.any FileReport.hasErrors

/-- A report has as many findings as its files have errors and warnings. -/
theorem total_eq_foldr (r : Report) :
    r.total = r.foldr (fun f n => f.errorCount + f.warningCount + n) 0 := by
  simp [total, FileReport.errorCount_add_warningCount]

end Report

end Findings
