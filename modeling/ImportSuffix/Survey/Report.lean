import ImportSuffix.Log
import ImportSuffix.Settings.Basic
import ImportSuffix.Survey.Walk

/-!
The findings of a walk, sorted by kind.
-/

namespace ImportSuffix

/-- The files to update, the directories that could not be walked, and what was
noted on the way, each in the order of the walk. -/
structure Survey where
  candidates : List Path
  skipped : List SkippedDirectory
  records : List Record
  deriving DecidableEq, Repr

namespace Finding

def candidate? : Finding → Option Path
  | candidate path => some path
  | _ => none

def skipped? : Finding → Option SkippedDirectory
  | skipped directory => some directory
  | _ => none

end Finding

namespace Survey

def ofFindings (findings : List Finding) : Survey where
  candidates := findings.filterMap Finding.candidate?
  skipped := findings.filterMap Finding.skipped?
  records := findings.filterMap Finding.record?

def isComplete (survey : Survey) : Bool := survey.skipped.isEmpty

/-- What there is for some settings on a disk. -/
def take (settings : Settings) (disk : Disk) : Survey :=
  ofFindings (disk.findings settings.root settings.excluded settings.targetName)

end Survey

end ImportSuffix
