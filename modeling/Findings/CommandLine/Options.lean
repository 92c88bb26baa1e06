/-!
# What a command line can say

The options of a run, the words of a command line by their form, and the reasons for not starting a
run. A word that begins with two dashes is a long option, one with a single dash a cluster of short
ones; a lone dash is a word like any other, and two dashes alone separate the options from what
follows.
-/

namespace Findings.CommandLine

/-- What a run is asked to do. -/
structure Options where
  /-- The document to read. -/
  input : Option String := none
  /-- Where the report is to be written. -/
  output : Option String := none
  /-- Whether to tell each step. -/
  verbose : Bool := false
  deriving DecidableEq

/-- The file to read; a lone dash stands for standard input, as no name does. -/
def Options.inputPath (o : Options) : Option String :=
  o.input.filter (· != "-")

/-- Why a command line starts no run. -/
inductive Stop where
  | help
  | version
  | unknownArgument
  | invalidValue
  | argumentConflict
  | tooManyValues
  deriving DecidableEq

/-- The options by their long names. -/
inductive Flag where
  | output
  | verbose
  | help
  | version
  deriving DecidableEq

namespace Flag

def ofName? : String → Option Flag
  | "output" => some output
  | "verbose" => some verbose
  | "help" => some help
  | "version" => some version
  | _ => none

def ofLetter? : Char → Option Flag
  | 'o' => some output
  | 'v' => some verbose
  | 'h' => some help
  | 'V' => some version
  | _ => none

end Flag

/-- A word of a command line by its form. -/
inductive Word where
  | separator
  /-- A name after two dashes, and what follows its first equals sign. -/
  | long (name : String) (value : Option String)
  /-- The letters after one dash. -/
  | short (letters : List Char)
  | plain
  deriving DecidableEq

/-- The form of a word. -/
def Word.ofString (s : String) : Word :=
  match s.toList with
  | ['-', '-'] => .separator
  | '-' :: '-' :: cs =>
    let name := String.ofList (cs.takeWhile (· != '='))
    match cs.dropWhile (· != '=') with
    | [] => .long name none
    | _ :: value => .long name (some (String.ofList value))
  | ['-'] => .plain
  | '-' :: letters => .short letters
  | _ => .plain

end Findings.CommandLine
