import ImportSuffix.Failure
import ImportSuffix.Settings.ExcludedNames

/-!
What one run is told to do, and the checks that its settings have to pass.
-/

namespace ImportSuffix

/-- Everything that a run has to know: where to look for files of which name, which
directories to leave out, what to append, and whether to write at all. -/
structure Settings where
  root : Path
  excluded : ExcludedNames
  targetName : String
  extension : String
  dryRun : Bool

namespace Settings

def defaultTargetName : String := "index.ts"

def defaultExtension : String := ".js"

/-- The name of the directory in the working directory that is walked if no
target is given. -/
def defaultRoot : String := "packages"

def ofRoot (root : Path) : Settings :=
  ⟨root, .empty, defaultTargetName, defaultExtension, false⟩

/-- An extension with its dot in front.  An empty one stays empty. -/
def dotted (extension : String) : String :=
  match extension.toList.head? with
  | none | some '.' => extension
  | some _ => "." ++ extension

inductive Problem where
  | emptyName
  | nameIsPath (name : String)
  | extensionTooShort (extension : String)
  | extensionCharacters (extension : String)
  deriving DecidableEq, Repr

def Problem.explanation : Problem → String
  | emptyName => "target file name is empty"
  | nameIsPath name => "target file name '" ++ name ++ "' must be a plain name, not a path"
  | extensionTooShort extension => "extension '" ++ extension ++ "' has nothing after the dot"
  | extensionCharacters extension =>
      "extension '" ++ extension ++ "' contains quote, semicolon or path separator characters"

/-- Characters that separate the names of a path on some system. -/
def separatesNames (char : Char) : Bool := char == '/' || char == '\\'

/-- Characters that would end a specifier early, or make it another path. -/
def breaksSpecifier (char : Char) : Bool :=
  char == '\'' || char == '"' || char == ';' || separatesNames char

def problem? (settings : Settings) : Option Problem :=
  if settings.targetName.isEmpty then some .emptyName
  else if settings.targetName.toList.any separatesNames then
    some (.nameIsPath settings.targetName)
  else if settings.extension.utf8ByteSize < 2 then
    some (.extensionTooShort settings.extension)
  else if settings.extension.toList.any breaksSpecifier then
    some (.extensionCharacters settings.extension)
  else none

def check (settings : Settings) : Except Failure Unit :=
  match settings.problem? with
  | none => .ok ()
  | some problem => .error (.invalidSettings problem.explanation)

end Settings

end ImportSuffix
