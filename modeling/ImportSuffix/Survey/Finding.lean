import ImportSuffix.Disk.Access
import ImportSuffix.Settings.ExcludedNames

/-!
What a walk comes across, in its order.
-/

namespace ImportSuffix

/-- Why a directory is skipped: it is something else, or a link, or its entries
cannot be listed. -/
inductive SkipReason where
  | notADirectory
  | unlistable (cause : Cause)
  deriving DecidableEq, Repr

def SkipReason.message : SkipReason → String
  | notADirectory => "not a directory"
  | unlistable cause => cause.message

/-- A directory of which nothing could be found out. -/
structure SkippedDirectory where
  path : Path
  reason : SkipReason
  deriving DecidableEq, Repr

def SkippedDirectory.display (skipped : SkippedDirectory) : String :=
  skipped.path.display ++ " (" ++ skipped.reason.message ++ ")"

/-- One thing that a walk comes across: a file with the right name, a directory with
an excluded name, or a directory that cannot be walked. -/
inductive Finding where
  | candidate (path : Path)
  | excluded (path : Path)
  | skipped (directory : SkippedDirectory)
  deriving DecidableEq, Repr

end ImportSuffix
