import Findings.Json.Document

/-!
# Files by their names

Files and directories, and what comes of reading and writing them by name. A name is a path, from
the root if it begins with a slash and from the working directory otherwise. Its parts are separated
by slashes; `.` is the directory one is in and `..` the one above.

The working directory lies somewhere below the root. The directories above it are there and can be
entered, but nothing is known to be stored in them until it is written.

A directory can be opened like a file and then yields no byte but an error; it cannot be written.

Main statement: what is stored at a place is found there, unless the place is a directory by its own
nature (`get?_insert_self`).
-/

namespace Findings

open Json

/-- What is stored. -/
inductive Entry where
  | file (bytes : List UInt8)
  | directory
  deriving DecidableEq

/-- Why a file cannot be opened. -/
inductive FileProblem where
  | notFound
  | isDirectory
  | notDirectory
  | nameTooLong
  /-- The character by which the system ends names stands in one. -/
  | nulInName
  /-- Another reason of the system. -/
  | other (reason : String)
  deriving DecidableEq

/-- The wording of the system. -/
def FileProblem.message : FileProblem → String
  | notFound => "No such file or directory (os error 2)"
  | isDirectory => "Is a directory (os error 21)"
  | notDirectory => "Not a directory (os error 20)"
  | nameTooLong => "File name too long (os error 36)"
  | nulInName => "file name contained an unexpected NUL byte"
  | other reason => reason

/-- A stream that cannot be read because it is a directory. -/
def Json.Stream.ofDirectory : Stream where
  bytes := []
  failure := some FileProblem.isDirectory.message

/-! ## Places -/

/-- A directory that is there in any case. -/
inductive Anchor where
  | root
  /-- The directory so many levels above the working directory. -/
  | working (above : Nat)
  deriving DecidableEq

/-- The directory above. The root has none and stands in for it. -/
def Anchor.up : Anchor → Anchor
  | root => root
  | working n => working (n + 1)

/-- A place where something may be stored: the parts of a path that starts at an anchor. -/
structure Location where
  anchor : Anchor := .working 0
  path : List String
  deriving DecidableEq

namespace Location

/-- The place above. -/
def up (l : Location) : Location :=
  if l.path.isEmpty then { l with anchor := l.anchor.up } else { l with path := l.path.dropLast }

/-- The place that a part names below a directory. -/
def down (l : Location) (part : String) : Location :=
  { l with path := l.path ++ [part] }

end Location

/-- What is stored, by its place. -/
structure Files where
  entries : List (Location × Entry) := []

namespace Files

/-- What is stored at a place; an anchor is a directory. -/
def get? (fs : Files) (l : Location) : Option Entry :=
  if l.path.isEmpty then some .directory else fs.entries.lookup l

/-- Stores something at a place. -/
def insert (fs : Files) (l : Location) (e : Entry) : Files :=
  { entries := (l, e) :: fs.entries.filter (·.1 != l) }

theorem get?_insert_self (fs : Files) {l : Location} (e : Entry) (h : l.path ≠ []) :
    (fs.insert l e).get? l = some e := by
  simp [get?, insert, h]

/-! ## Names -/

/-- The greatest length of a part of a name, in bytes. -/
def longestPart : Nat := 255

/-- The greatest length of a whole name, in bytes. -/
def longestName : Nat := 4095

/-- A name as a path: where it starts, the directories on the way, the last part, and whether a
slash follows it. -/
structure Name where
  start : Location
  way : List String
  last : String
  slash : Bool

/-- The name that a text spells, or why it spells none. Repeated slashes count once. -/
def Name.ofString (s : String) : Except FileProblem Name :=
  if '\x00' ∈ s.toList then .error .nulInName
  else if longestName < s.utf8ByteSize then .error .nameTooLong
  else if s = "" then .error .notFound
  else
    let parts := ((s.toList.splitOn '/').filter (· != [])).map String.ofList
    .ok {
      start := { anchor := if s.startsWith "/" then .root else .working 0, path := [] }
      way := parts.dropLast
      last := parts.getLastD "."
      slash := s.endsWith "/" }

/-- What a directory stores under a part of a name. -/
def lookIn (fs : Files) (directory : Location) (part : String) :
    Except FileProblem (Option Entry) :=
  if longestPart < part.utf8ByteSize then .error .nameTooLong
  else .ok (fs.get? (directory.down part))

/-- Goes from a directory to the one that `part` names. -/
def descend (fs : Files) (directory : Location) (part : String) : Except FileProblem Location :=
  if part = "." then .ok directory
  else if part = ".." then .ok directory.up
  else do
    match ← fs.lookIn directory part with
    | some .directory => return directory.down part
    | some (.file _) => throw .notDirectory
    | none => throw .notFound

/-- The directory in which a name's last part is looked up. -/
def parent (fs : Files) (n : Name) : Except FileProblem Location :=
  n.way.foldlM fs.descend n.start

/-- Whether a part names a directory in every directory. -/
def isDots (part : String) : Bool :=
  part == "." || part == ".."

/-! ## Reading and writing -/

/-- Opens a file for reading. -/
def read (fs : Files) (name : String) : Except FileProblem Stream := do
  let n ← Name.ofString name
  let directory ← fs.parent n
  if isDots n.last then return Stream.ofDirectory
  match ← fs.lookIn directory n.last with
  | none => throw .notFound
  | some .directory => return Stream.ofDirectory
  | some (.file bytes) => if n.slash then throw .notDirectory else return { bytes }

/-- Writes a file, which then holds `bytes` and nothing else. -/
def write (fs : Files) (name : String) (bytes : List UInt8) : Except FileProblem Files := do
  let n ← Name.ofString name
  let directory ← fs.parent n
  if isDots n.last || n.slash then throw .isDirectory
  match ← fs.lookIn directory n.last with
  | some .directory => throw .isDirectory
  | _ => return fs.insert (directory.down n.last) (.file bytes)

/-- The files in the working directory and below it that are new in `fs` or hold other bytes than in
`before`, by their names. -/
def changed (fs before : Files) : List (String × List UInt8) :=
  fs.entries.filterMap fun
    | (l, .file bytes) =>
      if l.anchor ≠ .working 0 ∨ before.get? l = some (.file bytes) then none
      else some ("/".intercalate l.path, bytes)
    | (_, .directory) => none

end Files

end Findings
