import ImportSuffix.Disk.Changes
import ImportSuffix.Program

/-!
The command line program.

It takes a picture of the part of the disk that its settings concern, runs on
the picture, prints what was printed there, and carries the changes over.
Everything that it decides is decided in `Program.execute`.
-/

namespace ImportSuffix

open Text CommandLine

namespace Picture

/-- The name of an entry that exists nowhere, since no name holds a zero byte. -/
def nowhere : Path := ⟨[0]⟩

def place (directory name : String) : IO.FS.DirEntry :=
  { root := directory, fileName := name }

/-- Where a place is when all links are followed. -/
def realPath? (item : IO.FS.DirEntry) : IO (Option Path) := do
  try
    return some (.ofText (← IO.FS.realPath item.path).toString)
  catch _ => return none

mutual

partial def listing (settings : Settings) (directory : IO.FS.DirEntry) : IO Listing := do
  let items ← directory.path.readDir
  items.toList.mapM fun item => return (encode item.fileName, ← entry settings item)

/-- An entry below the root.  Links are not followed, and contents matter only
under the name that is looked for. -/
partial def entry (settings : Settings) (item : IO.FS.DirEntry) : IO Entry := do
  match (← item.path.symlinkMetadata).type with
  | .dir =>
      if settings.excluded.contains (encode item.fileName) then return .directory []
      return .directory (← listing settings item)
  | .file =>
      if item.fileName != settings.targetName then return .file []
      return .file (← IO.FS.readBinFile item.path).data.toList
  | .symlink => return .link nowhere
  | .other => return .pipe

end

/-- Put an entry at a location that has none yet. -/
def note (disk : Disk) (location : Location) (entry : Entry) : Disk :=
  if (disk.entry? location).isSome then disk else disk.insert location entry

/-- Add what stands at one place on the way to the root.  A link is given the real
path to which it leads in the end. -/
def noteStep (disk : Disk) (item : IO.FS.DirEntry) : IO Disk := do
  let some parent ← realPath? (place item.root.toString ".") | return disk
  let location := parent.names ++ [encode item.fileName]
  match (← item.path.symlinkMetadata).type with
  | .dir => return note disk location (.directory [])
  | .file => return note disk location (.file [])
  | .other => return note disk location .pipe
  | .symlink =>
      match ← realPath? item with
      | none => return note disk location (.link nowhere)
      | some target =>
          let kind : Entry := if ← item.path.isDir then .directory [] else .file []
          return note (note disk location (.link target)) target.names kind

/-- Add everything on the way along a path, up to the first place that is not
there. -/
def noteWay (disk : Disk) (walked : String) : List Part → IO Disk
  | [] => return disk
  | .down name :: rest => do
      let item := place walked (Text.display name)
      try
        let disk ← noteStep disk item
        noteWay disk item.path.toString rest
      catch _ => return disk
  | .up :: rest => noteWay disk (walked ++ "/..") rest
  | .here :: rest | .trailing :: rest => noteWay disk walked rest

/-- Make sure that the working directory is there. -/
def noteWorkingDirectory (disk : Disk) : Disk :=
  note disk disk.workingDirectory (.directory [])

/-- The disk before anything is known of it but the working directory.  One that is gone
is nowhere. -/
def bare : (workingDirectory : Option Path) → Disk
  | some path => noteWorkingDirectory ⟨.directory [], path.names⟩
  | none => ⟨.directory [], nowhere.names⟩

/-- The part of the disk that a run with some settings looks at. -/
def take (bare : Disk) (settings : Settings) : IO Disk := do
  let disk ← noteWay bare "/" settings.root.parts
  let some root ← realPath? (place settings.root.display ".") | return disk
  let found ← listing settings (place root.display ".")
  -- An excluded directory is empty on the picture, also if the program is started below it.
  return noteWorkingDirectory (disk.insert root.names (.directory found))

/-- Write the changed files of a picture to the disk. -/
def carryOver (before after : Disk) : IO Unit := do
  for (location, content) in after.root.changesFrom before.root do
    if let some content := content then
      IO.FS.writeBinFile location.path.display content.toByteArray

end Picture

def workingDirectory? : IO (Option Path) := do
  try
    return some (.ofText (← IO.currentDir).toString)
  catch _ => return none

/-- Run with the words of a command line; the result is the exit status. -/
def start (words : List String) : IO UInt32 := do
  let arguments := words.map encode
  let bare := Picture.bare (← workingDirectory?)
  let disk ←
    match parse arguments with
    | .error _ => pure bare
    | .ok parsed =>
        match parsed.settingsOn bare with
        | .error _ => pure bare
        | .ok settings => Picture.take bare settings
  let execution := Program.execute arguments disk
  for message in execution.messages do
    IO.print message.output
  Picture.carryOver disk execution.disk
  if let some complaint := execution.complaint then
    IO.eprintln complaint
  return execution.status.toUInt32

end ImportSuffix

/-- Read the command line, run, and leave with the exit status of the run. -/
def main (words : List String) : IO UInt32 := ImportSuffix.start words
