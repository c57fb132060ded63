import ImportSuffix.Settings.Basic

/-!
The meaning of a command line, and the settings that follow from it.
-/

namespace ImportSuffix.CommandLine

/-- What a command line says.  The extension may lack its dot, and `verbose` counts
how often more output is asked for. -/
structure Arguments where
  targetDir : Option Path
  excludeDirs : List String
  fileName : String
  extension : String
  dryRun : Bool
  verbose : Nat
  deriving DecidableEq, Repr

namespace Arguments

/-- More requests than this one make no difference. -/
def verboseLimit : Nat := 255

def root (arguments : Arguments) (workingDirectory : Path) : Path :=
  (arguments.targetDir.getD (.ofText Settings.defaultRoot)).relativeTo workingDirectory

def settings (arguments : Arguments) (workingDirectory : Path) : Except Failure Settings := do
  let settings : Settings :=
    { root := arguments.root workingDirectory
      excluded := .ofList arguments.excludeDirs
      targetName := arguments.fileName
      extension := Settings.dotted arguments.extension
      dryRun := arguments.dryRun }
  settings.check
  return settings

end Arguments

end ImportSuffix.CommandLine
