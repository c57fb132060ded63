import ImportSuffix.Disk.Entry
import ImportSuffix.Failure

/-!
Following a path on a disk.

A walk takes the steps of a path one after the other.  Where a step leads to a
symbolic link, the steps of its target come before the ones that are left.  No
walk passes through more than `linkLimit` links, so the recursion is on the
links still allowed and, between two links, on the steps.
-/

namespace ImportSuffix

open Text

/-- A tree of files, and the location of the directory in which the program is started. -/
structure Disk where
  root : Entry
  workingDirectory : Location

namespace Disk

def nameLimit : Nat := 255

/-- The bytes of a path, with a final zero byte that is not written. -/
def pathLimit : Nat := 4096

def linkLimit : Nat := 40

/-- What a walk is for, which decides about the last name on it. -/
inductive Ending where
  /-- The entry of that name, even if it is a link. -/
  | entry
  /-- What the name leads to. -/
  | target
  /-- What the name leads to, or the place where a file can be made. -/
  | place
  deriving DecidableEq, Repr

def entry? (disk : Disk) (location : Location) : Option Entry := disk.root.at? location

def insert (disk : Disk) (location : Location) (entry : Entry) : Disk :=
  { disk with root := Entry.insert entry disk.root location }

def start (path : Path) (here : Location) : Location :=
  if path.isAbsolute then [] else here

/-- Take steps from a directory.  `throughLink` goes on behind a link: it gets the
directory that holds the link, its target, and the steps that are left.

A place that is asked for as a directory is refused before it is looked up,
since only a file could be made there. -/
def advance (disk : Disk) (ending : Ending)
    (throughLink : Location → Path → List Part → Except Cause Location) :
    Location → List Part → Except Cause Location
  | here, [] => .ok here
  | here, part :: rest =>
      match disk.entry? here with
      | some (.directory listing) =>
          match part with
          | .here | .trailing => advance disk ending throughLink here rest
          | .up => advance disk ending throughLink here.dropLast rest
          | .down name =>
              if ending = .place ∧ rest = [.trailing] then .error (.system .isADirectory)
              else if nameLimit < name.length then .error (.system .nameTooLong)
              else
                match listing.lookup name with
                | none =>
                    if ending = .place ∧ rest = [] then .ok (here ++ [name])
                    else .error (.system .noEntry)
                | some (.link target) =>
                    if ending = .entry ∧ rest = [] then .ok (here ++ [name])
                    else throughLink here target rest
                | some _ => advance disk ending throughLink (here ++ [name]) rest
      | _ => .error (.system .notADirectory)

/-- Take steps from a directory, through at most a number of links. -/
def walk (disk : Disk) (ending : Ending) :
    (links : Nat) → Location → List Part → Except Cause Location
  | 0 => disk.advance ending fun _ _ _ => .error (.system .tooManyLinks)
  | links + 1 =>
      disk.advance ending fun here target rest =>
        disk.walk ending links (start target here) (target.parts ++ rest)

/-- Where a path leads from the working directory. -/
def locate (disk : Disk) (ending : Ending) (path : Path) : Except Cause Location :=
  if path.bytes.contains 0 then .error .zeroInPath
  else if path.bytes.isEmpty then .error (.system .noEntry)
  else if pathLimit ≤ path.bytes.length then .error (.system .nameTooLong)
  else disk.walk ending linkLimit (start path disk.workingDirectory) path.parts

end Disk

end ImportSuffix
