import ImportSuffix.CommandLine.Help
import ImportSuffix.Log
import ImportSuffix.Text.Terminal

/-!
What the program prints on standard output: the answer to a question about
itself, or the report of a run with log records between its lines.
-/

namespace ImportSuffix

open Text

/-- One thing to print.  `candidate`, `updated` and `wouldUpdate` are about single
files; the last stands in a dry run where a real one has the second. -/
inductive Message where
  | help
  | version
  | scanning (root : Path)
  | excluding (names : ExcludedNames)
  | found (targetName : String)
  | candidate (path : Path)
  | updated (path : Path)
  | wouldUpdate (path : Path)
  | done (targetName : String)
  | log (record : Record)

namespace Message

/-- Text for the log: the lines after the first are indented. -/
def indented (text : String) : String :=
  "\n    ".intercalate ((text.toList.splitOn '\n').map String.ofList)

/-- The line that a message is, without the line feed that ends it.  A line of the log has its
level in front; the time and the module that stand beside the level are left out. -/
def text : Message → String
  | help => CommandLine.helpText
  | version => CommandLine.versionText
  | scanning root => "Scanning \"" ++ root.display ++ "\""
  | excluding names => "Excluding directories by name: " ++ names.display
  | found targetName => "Found " ++ targetName ++ " files:"
  | candidate path => path.display
  | updated path => "Updated " ++ path.display
  | wouldUpdate path => "Would update " ++ path.display
  | done targetName => "Done processing " ++ targetName ++ " files."
  | log record => record.level.name ++ " " ++ indented record.text

def record? : Message → Option Record
  | log record => some record
  | _ => none

/-- What a message adds to the output, which is a pipe or a file.  What a terminal would obey is
taken out of the log.  There the line feed is read as a part of the line, so that a string without
an end in a name hides it too. -/
def output (message : Message) : String :=
  let line := message.text ++ "\n"
  match message.record? with
  | some _ => plainOutput line
  | none => line

/-- Whether a message is shown down to a level.  Only log records depend on it. -/
def shownAt (last : Level) : Message → Bool
  | log record => last.shows record.level
  | _ => true

end Message

end ImportSuffix
