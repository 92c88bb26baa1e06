import Findings.Report.Basic

/-!
# Findings before their check

A document may leave out any part of a finding, write `null` for it, or mark the finding as fatal,
which means that the file could not be checked at all. A `Draft` holds what was read, and
`Draft.check` turns it into a finding or says what is wrong first: fatal before anything else, then
the parts in the order in which a finding names them.
-/

namespace Findings

/-- What a document says about one finding. -/
structure Draft where
  rule : Option String := none
  severity : Option Int := none
  text : Option String := none
  line : Option UInt32 := none
  column : Option UInt32 := none
  fatal : Bool := false
  deriving DecidableEq

namespace Draft

/-- Why a draft is no finding. -/
inductive Problem where
  | fatal
  | missing (key : String)
  | unknownSeverity (code : Int)
  deriving DecidableEq

/-- The wording of a problem. -/
def Problem.message : Problem → String
  | fatal => "fatal messages are not supported"
  | missing key => "missing or null field `" ++ key ++ "`"
  | unknownSeverity code =>
    "unknown severity " ++ toString code ++ " (expected 1 for warning or 2 for error)"

/-- The part of a draft that documents call `key`. -/
def require (key : String) : Option α → Except Problem α
  | some a => .ok a
  | none => .error (.missing key)

/-- The severity that a number stands for. -/
def severityOf (code : Int) : Except Problem Severity :=
  match Severity.ofCode? code with
  | some s => .ok s
  | none => .error (.unknownSeverity code)

/-- The finding that a draft describes, or the first thing that is wrong with it. -/
def check (d : Draft) : Except Problem Finding := do
  if d.fatal then throw .fatal
  let rule ← require "ruleId" d.rule
  let severity ← severityOf (← require "severity" d.severity)
  let text ← require "message" d.text
  let line ← require "line" d.line
  let column ← require "column" d.column
  return { rule, severity, text, line, column }

/-- The draft that says all about a finding. -/
def ofFinding (f : Finding) : Draft where
  rule := f.rule
  severity := some f.severity.code
  text := f.text
  line := f.line
  column := f.column

@[simp] theorem severityOf_code (s : Severity) : severityOf s.code = .ok s := by
  simp [severityOf]

/-- A draft that says all passes its check. -/
theorem check_ofFinding (f : Finding) : (ofFinding f).check = .ok f := by
  simp [check, ofFinding, require, bind, Except.bind, pure, Except.pure]

/-- A fatal draft is refused as such, whatever else it says. -/
theorem check_of_fatal {d : Draft} (h : d.fatal = true) : d.check = .error .fatal := by
  simp [check, h, bind, Except.bind, throw, throwThe, MonadExceptOf.throw]

end Draft

end Findings
