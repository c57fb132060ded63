import ImportSuffix.Disk.Walk

/-!
Looking at entries, reading and writing whole files, and the working directory.
-/

namespace ImportSuffix

open Text

namespace Disk

/-- The entry that a path names; with `Ending.entry`, a link is itself. -/
def inspect (disk : Disk) (ending : Ending) (path : Path) : Except Cause Entry := do
  let location ← disk.locate ending path
  match disk.entry? location with
  | some entry => return entry
  | none => throw (.system .noEntry)

/-- The text of a file.  A pipe has nobody at its other end, so there is nothing
to read from it. -/
def read (disk : Disk) (path : Path) : Except Cause String := do
  match ← disk.inspect .target path with
  | .file content =>
      match decode? content with
      | some text => return text
      | none => throw .invalidText
  | .directory _ => throw (.system .isADirectory)
  | .link _ | .pipe => throw (.system .tryAgain)

/-- Replace the content of a file by a text.  A file that does not exist is made,
also where a link leads to nothing. -/
def write (disk : Disk) (path : Path) (text : String) : Except Cause Disk := do
  let location ← disk.locate .place path
  match disk.entry? location with
  | none | some (.file _) => return disk.insert location (.file (encode text))
  | some (.directory _) => throw (.system .isADirectory)
  | some (.link _) | some .pipe => throw (.system .tryAgain)

/-- The path of the working directory.  It has none once it is removed, which it can be while
the program is started in it. -/
def currentDirectory (disk : Disk) : Except Cause Path :=
  match disk.entry? disk.workingDirectory with
  | some (.directory _) => .ok disk.workingDirectory.path
  | _ => .error (.system .noEntry)

end Disk

end ImportSuffix
