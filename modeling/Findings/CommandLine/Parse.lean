import Findings.CommandLine.Options

/-!
# Reading a command line

Words are read from left to right, and the first thing that is wrong, or the first request for help
or the version, decides. An option that takes a value may have it in the next word, so what was read
last stays *pending*: it is checked and kept when a later word is known to begin something new, or
when the words end. A word that is not known at all is refused without looking at what is pending.
-/

namespace Findings.CommandLine

/-- What was read last and is not checked yet. -/
inductive Pending where
  | nothing
  /-- An output option, and its value if that has come. -/
  | output (value : Option String)
  | input (value : String)
  deriving DecidableEq

/-- The words read so far. -/
structure State where
  /-- What is checked. -/
  options : Options := {}
  pending : Pending := .nothing
  deriving DecidableEq

/-- Keeps the value of the output option. It is given at most once and is not empty. -/
def Options.setOutput (o : Options) (value : String) : Except Stop Options :=
  if o.output.isSome then .error .argumentConflict
  else if value.isEmpty then .error .invalidValue
  else .ok { o with output := some value }

/-- Keeps the input, which is not empty. -/
def Options.setInput (o : Options) (value : String) : Except Stop Options :=
  if value.isEmpty then .error .invalidValue else .ok { o with input := some value }

/-- Asks for every step to be told, which is asked at most once. -/
def Options.setVerbose (o : Options) : Except Stop Options :=
  if o.verbose then .error .argumentConflict else .ok { o with verbose := true }

namespace State

/-- Checks and keeps what is pending. -/
def settle (s : State) : Except Stop Options :=
  match s.pending with
  | .nothing => .ok s.options
  | .output none => .error .invalidValue
  | .output (some value) => s.options.setOutput value
  | .input value => s.options.setInput value

/-- Whether an input was read. -/
def hasInput (s : State) : Bool :=
  s.options.input.isSome || (match s.pending with | .input _ => true | _ => false)

/-- Reads an option. `attached` is the value that is written in the same word. -/
def flag (s : State) (f : Flag) (attached : Option String) : Except Stop State := do
  let o ← s.settle
  match f, attached with
  | .output, none => return { options := o, pending := .output none }
  | .output, some value => return { options := ← o.setOutput value }
  | .verbose, _ => return { options := ← o.setVerbose }
  | .help, _ => throw .help
  | .version, _ => throw .version

/-- Reads a long option. Only the output option takes a value. -/
def long (s : State) (name : String) (value : Option String) : Except Stop State :=
  match Flag.ofName? name with
  | none => .error .unknownArgument
  | some .output => s.flag .output value
  | some f => if value.isSome then .error .tooManyValues else s.flag f none

/-- Reads a cluster of short options. What follows the letter of the output option in the cluster is
its value, less one equals sign in front. -/
def short (s : State) : List Char → Except Stop State
  | [] => .ok s
  | c :: cs =>
    match Flag.ofLetter? c with
    | none => .error .unknownArgument
    | some .output =>
      match cs with
      | [] => s.flag .output none
      | '=' :: value => s.flag .output (some (String.ofList value))
      | value => s.flag .output (some (String.ofList value))
    | some f => do (← s.flag f none).short cs

/-- Reads a word as the input, of which there is one. -/
def operand (s : State) (w : String) : Except Stop State := do
  if s.hasInput then throw .unknownArgument
  return { options := ← s.settle, pending := .input w }

/-- Reads a word that begins no option: the value that an output option waits for, or the input. -/
def plain (s : State) (w : String) : Except Stop State :=
  match s.pending with
  | .output none => .ok { s with pending := .output (some w) }
  | _ => s.operand w

end State

/-- Reads words after the separator, where all are operands. -/
def operands (s : State) : List String → Except Stop Options
  | [] => s.settle
  | w :: ws => do operands (← s.operand w) ws

/-- Reads words. -/
def words (s : State) : List String → Except Stop Options
  | [] => s.settle
  | w :: ws =>
    match Word.ofString w with
    | .separator => operands s ws
    | .long name value => do words (← s.long name value) ws
    | .short letters => do words (← s.short letters) ws
    | .plain => do words (← s.plain w) ws

/-- The options that a command line gives. -/
def parse (args : List String) : Except Stop Options :=
  words {} args

end Findings.CommandLine
