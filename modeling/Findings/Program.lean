import Findings.CommandLine.Parse
import Findings.CommandLine.Usage
import Findings.Files
import Findings.Report.Decoding
import Findings.Report.VisualStudio
import Findings.Text.Terminal

/-!
# A run of the program

A run reads a document, renders the report that it holds, and writes the text. It is described over
a `System`, which reads and writes by name, so that the same description runs on the files of a
computer and on the `Files` of a directory that is a value.

A run reads its input to the end before it writes anything, and what it writes last decides: a run
that fails has written nothing.
-/

namespace Findings

open Json

/-! ## What goes wrong -/

/-- Why there is no report. -/
inductive LoadProblem where
  /-- The file cannot be opened. -/
  | file (problem : FileProblem)
  /-- What was read is no report, or could not be read to its end. -/
  | document (refusal : Refusal)
  deriving DecidableEq

/-- The wording of a problem. -/
def LoadProblem.message : LoadProblem → String
  | file p => "I/O error: " ++ p.message
  | document r => "Parse error: " ++ r.text

/-- Why a run fails. -/
inductive Failure where
  | load (problem : LoadProblem)
  /-- The report cannot be written. -/
  | write (problem : FileProblem)
  deriving DecidableEq

/-! ## What a run leaves behind -/

/-- What happens in a run, for the log. -/
inductive Event where
  /-- The input is about to be read, from a file or from standard input. -/
  | reading (path : Option String)
  | decoded (files findings : Nat)
  | wrote (path : String)
  | failed (failure : Failure)
  deriving DecidableEq

namespace Event

/-- How much an event matters. -/
inductive Level where
  | debug
  | info
  | error
  deriving DecidableEq

/-- The word for a level in the log. -/
def Level.word : Level → String
  | debug => "DEBUG"
  | info => "INFO"
  | error => "ERROR"

def level : Event → Level
  | reading _ => .debug
  | decoded _ _ => .debug
  | wrote _ => .info
  | failed _ => .error

/-- Whether an event is logged. -/
def isLogged (verbose : Bool) (e : Event) : Bool :=
  verbose || e.level != .debug

/-- The words of an event. -/
def message : Event → String
  | reading none => "Reading lint results from stdin"
  | reading (some path) => "Reading lint results from " ++ path
  | decoded files findings =>
    "Decoded " ++ toString files ++ " file report(s) with " ++ toString findings ++ " problem(s)"
  | wrote path => "Wrote report to " ++ path
  | failed (.load p) => p.message
  | failed (.write p) => p.message

/-- An event as an entry of the log. A name in it cannot command the terminal. -/
def entry (e : Event) : String :=
  Text.Terminal.shown (e.level.word ++ " " ++ e.message)

/-- The first line of an entry. A name may hold line ends, and what follows the first of them is no
entry to a reader of lines. -/
def line (e : Event) : String :=
  let cs := e.entry.toList.takeWhile (· != '\n')
  String.ofList (if cs.getLast? = some '\r' then cs.dropLast else cs)

end Event

/-- How a run ends. -/
inductive Status where
  | clean
  /-- Some finding is an error. -/
  | errorsFound
  | failed
  deriving DecidableEq

/-- The number that the caller of the program sees. -/
def Status.code : Status → UInt32
  | clean => 0
  | errorsFound => 1
  | failed => 2

/-- What a run tells. -/
structure Run where
  status : Status
  /-- What is printed. -/
  output : String := ""
  /-- What is logged, in order. -/
  log : List Event := []
  deriving DecidableEq

/-! ## Runs -/

/-- What a run needs of the computer. -/
structure System (m : Type → Type) where
  stdin : m Stream
  read : String → m (Except FileProblem Stream)
  write : String → List UInt8 → m (Except FileProblem Unit)

/-- The text of a report with the line feed at its end. -/
def Report.printed (r : Report) : String :=
  VisualStudio.render r ++ "\n"

/-- How a run ends that has rendered a report. -/
def Report.status (r : Report) : Status :=
  if r.hasErrors then .errorsFound else .clean

namespace Program

variable {m : Type → Type} [Monad m]

/-- Reads the input that the options name. -/
def fetch (sys : System m) (path : Option String) : m (Except FileProblem Stream) :=
  match path with
  | some p => sys.read p
  | none => do return .ok (← sys.stdin)

/-- The report in what was read. -/
def load (input : Except FileProblem Stream) : Except LoadProblem Report := do
  let s ← input.mapError .file
  (Report.ofStream s).mapError .document

/-- Renders a report to a file or to standard output; the events so far come before those of
writing. -/
def deliver (sys : System m) (path : Option String) (r : Report) (before : List Event) :
    m Run := do
  match path with
  | none => return { status := r.status, output := r.printed, log := before }
  | some p =>
    match ← sys.write p (Text.Utf8.encode r.printed.toList) with
    | .ok () => return { status := r.status, log := before ++ [.wrote p] }
    | .error e => return { status := .failed, log := before ++ [.failed (.write e)] }

/-- Does what the options say and tells everything. -/
def perform (sys : System m) (o : CommandLine.Options) : m Run := do
  let begun := [Event.reading o.inputPath]
  match load (← fetch sys o.inputPath) with
  | .error p => return { status := .failed, log := begun ++ [.failed (.load p)] }
  | .ok r => deliver sys o.output r (begun ++ [.decoded r.length r.total])

/-- What a command line that starts no run comes to. -/
def refuse : CommandLine.Stop → Run
  | .help => { status := .clean, output := CommandLine.helpText }
  | .version => { status := .clean, output := CommandLine.versionText }
  | _ => { status := .failed }

/-- Runs the program with the words of a command line. Debug events are told only if asked for. -/
def run (sys : System m) (args : List String) : m Run := do
  match CommandLine.parse args with
  | .error stop => return refuse stop
  | .ok o =>
    let outcome ← perform sys o
    return { outcome with log := outcome.log.filter (·.isLogged o.verbose) }

/-! ## Runs on files that are a value -/

/-- The system of a directory and of what standard input holds. -/
def directory (stdin : Stream) : System (StateM Files) where
  stdin := pure stdin
  read name := do return (← get).read name
  write name bytes := do
    match (← get).write name bytes with
    | .ok fs =>
      set fs
      return .ok ()
    | .error e => return .error e

/-- Runs the program in a directory, and says what the directory then holds. -/
def runIn (fs : Files) (stdin : Stream) (args : List String) : Run × Files :=
  (run (directory stdin) args).run fs

end Program

end Findings
