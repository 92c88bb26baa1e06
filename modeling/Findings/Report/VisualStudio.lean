import Findings.Report.Basic

/-!
# Reports that an editor can jump from

One line a finding, `PATH(LINE,COLUMN): WORD RULE : TEXT`, in the form that Visual Studio reads from
a build. The lines are followed by an empty line and a summary. Nothing is escaped, and a file
without findings leaves no line.
-/

namespace Findings.VisualStudio

/-- The name by which the format is chosen. -/
def name : String :=
  "visualstudio"

/-- The line of one finding in the file at `path`. -/
def line (path : String) (f : Finding) : String :=
  path ++ "(" ++ toString f.line ++ "," ++ toString f.column ++ "): "
    ++ f.severity.word ++ " " ++ f.rule ++ " : " ++ f.text

/-- The lines of a whole report, in its order. -/
def lines (report : Report) : List String :=
  report.flatMap fun r => r.findings.map (line r.path)

/-- The last line, which counts the lines above. -/
def summary (count : Nat) : String :=
  if count = 0 then "no problems"
  else if count = 1 then "1 problem"
  else toString count ++ " problems"

/-- A report without lines is its summary alone. -/
def render (report : Report) : String :=
  if (lines report).isEmpty then summary 0
  else "\n".intercalate (lines report) ++ "\n\n" ++ summary (lines report).length

/-- There is one line a finding. -/
theorem length_lines (report : Report) :
    (lines report).length = report.total := by
  unfold lines Report.total
  induction report with
  | nil => rfl
  | cons r rs ih =>
    rw [List.flatMap_cons, List.length_append, List.length_map, ih, List.foldr_cons]

end Findings.VisualStudio
