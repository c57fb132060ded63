import ImportSuffix.CommandLine.Reader
import ImportSuffix.Run

/-!
The whole program, from its arguments to its exit status.
-/

namespace ImportSuffix

open Text CommandLine

/-- The settings that arguments give on a disk.  The working directory is asked for first, even if
the root turns out to be absolute. -/
def CommandLine.Arguments.settingsOn (arguments : Arguments) (disk : Disk) :
    Except Failure Settings :=
  match disk.currentDirectory with
  | .error cause => .error (.access cause)
  | .ok directory => arguments.settings directory

section

variable {arguments : Arguments} {disk : Disk}

end

namespace Program

/-- What is left when the program has ended: its exit status, what it printed on
standard output and on standard error, which take all of it, and the disk. -/
structure Execution where
  status : Nat
  messages : List Message
  complaint : Option String
  disk : Disk

def success : Nat := 0

def failure : Nat := 1

/-- The status of a program that was called in a wrong way. -/
def wrongUse : Nat := 2

/-- Carry out what a command line says. -/
def perform (arguments : Arguments) (disk : Disk) : Execution :=
  match arguments.settingsOn disk with
  | .error problem => ⟨failure, [], some problem.message, disk⟩
  | .ok settings =>
      let activity := run settings disk
      let shown := activity.messages.filter (·.shownAt (.ofVerbosity arguments.verbose))
      match activity.result with
      | .error problem => ⟨failure, shown, some problem.message, activity.disk⟩
      | .ok _ => ⟨success, shown, none, activity.disk⟩

def execute (arguments : List Bytes) (disk : Disk) : Execution :=
  match parse arguments with
  | .error .help => ⟨success, [.help], none, disk⟩
  | .error .version => ⟨success, [.version], none, disk⟩
  | .error (.misuse fault) => ⟨wrongUse, [], some fault.output, disk⟩
  | .ok arguments => perform arguments disk

end Program

end ImportSuffix
