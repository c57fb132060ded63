import ImportSuffix.Survey.Finding

/-!
The walk below a root.

Directories are walked in pre-order, each in the order of its listing.  Below
the root, links and pipes are passed over: nothing is found through them.
-/

namespace ImportSuffix

open Text

mutual

/-- What is found at an entry below the root, and below it. -/
def Entry.findings (excluded : ExcludedNames) (targetName : Bytes) (path : Path)
    (name : Bytes) : Entry → List Finding
  | .directory listing =>
      if excluded.contains name then [.excluded path]
      else if Disk.pathLimit ≤ path.bytes.length then
        [.skipped ⟨path, .unlistable (.system .nameTooLong)⟩]
      else Listing.findings excluded targetName path listing
  | .file _ => if name = targetName then [.candidate path] else []
  | .link _ | .pipe => []

def Listing.findings (excluded : ExcludedNames) (targetName : Bytes) (path : Path) :
    Listing → List Finding
  | [] => []
  | (name, entry) :: rest =>
      Entry.findings excluded targetName (path.join name) name entry ++
        Listing.findings excluded targetName path rest

end

/-- What is found below a root.  The root's own name does not matter.  A root
that is a link is noted as no directory, and walked if it leads to one. -/
def Disk.findings (disk : Disk) (root : Path) (excluded : ExcludedNames)
    (targetName : String) : List Finding :=
  let walk := Listing.findings excluded (encode targetName) root
  match disk.inspect .entry root with
  | .error cause => [.skipped ⟨root, .unlistable cause⟩]
  | .ok (.directory listing) => walk listing
  | .ok (.link _) =>
      match disk.inspect .target root with
      | .error cause => [.skipped ⟨root, .unlistable cause⟩]
      | .ok (.directory listing) => .skipped ⟨root, .notADirectory⟩ :: walk listing
      | .ok _ => [.skipped ⟨root, .notADirectory⟩]
  | .ok _ => [.skipped ⟨root, .notADirectory⟩]

end ImportSuffix
