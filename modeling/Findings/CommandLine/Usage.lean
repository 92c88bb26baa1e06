/-!
# What the program says about itself
-/

namespace Findings.CommandLine

/-- The lines of the answer to a request for help. -/
def helpLines : List String :=
  ["Render lint results as a Visual Studio style report",
   "",
   "Usage: lintreport [OPTIONS] [INPUT]",
   "",
   "Arguments:",
   "  [INPUT]  JSON lint results to render (\"-\" or omitted reads stdin)",
   "",
   "Options:",
   "  -o, --output <PATH>  Write the report to a file instead of stdout",
   "  -v, --verbose        Enable verbose output",
   "  -h, --help           Print help",
   "  -V, --version        Print version"]

/-- The answer to a request for help. -/
def helpText : String :=
  String.join (helpLines.map (· ++ "\n"))

/-- The answer to a request for the version. -/
def versionText : String :=
  "lintreport 0.1.0\n"

end Findings.CommandLine
