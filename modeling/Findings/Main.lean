import Findings.Program

/-!
# The program on a computer

The one module that touches the computer: it says how standard input and files are read and written,
and prints what a run tells.
-/

namespace Findings

open Json

/-- Why the system refuses a file. -/
def FileProblem.ofError : IO.Error → FileProblem
  | .noFileOrDirectory .. => .notFound
  | .inappropriateType _ code _ => if code = 20 then .notDirectory else .isDirectory
  | .invalidArgument _ 36 _ => .nameTooLong
  | e => .other (toString e)

/-- Reads to the end, or to the first failure, after the bytes of `done`. -/
partial def readAll (source : IO.FS.Stream) (done : ByteArray) : IO Stream := do
  match ← (source.read 65536).toBaseIO with
  | .error (.interrupted ..) => readAll source done
  | .error e => return { bytes := done.toList, failure := (FileProblem.ofError e).message }
  | .ok more =>
    if more.isEmpty then return { bytes := done.toList } else readAll source (done ++ more)

/-- The files of the computer and its standard input. -/
def computer : System IO where
  stdin := do readAll (← IO.getStdin) ByteArray.empty
  read name := do
    match ← (IO.FS.Handle.mk name .read).toBaseIO with
    | .error e => return .error (FileProblem.ofError e)
    | .ok h => return .ok (← readAll (IO.FS.Stream.ofHandle h) ByteArray.empty)
  write name bytes := do
    match ← (IO.FS.writeBinFile name bytes.toByteArray).toBaseIO with
    | .ok () => return .ok ()
    | .error e => return .error (FileProblem.ofError e)

end Findings

/-- Runs the program and ends with the number of its status. -/
def main (args : List String) : IO UInt32 := do
  let run ← Findings.Program.run Findings.computer args
  IO.print run.output
  for e in run.log do
    IO.eprintln e.entry
  return run.status.code
