import ImportSuffix.Survey.Finding
import ImportSuffix.Specifier.Rule

/-!
Log records: what the program notes about its work, each with a level.
-/

namespace ImportSuffix

/-- How important a record is; warnings come first. -/
inductive Level where
  | warn
  | info
  | debug
  | trace
  deriving DecidableEq, Repr

namespace Level

def name : Level → String
  | warn => "WARN"
  | info => "INFO"
  | debug => "DEBUG"
  | trace => "TRACE"

/-- How often more output has to be asked for to see records of a level. -/
def verbosity : Level → Nat
  | warn => 0
  | info => 1
  | debug => 2
  | trace => 3

/-- The last level that is shown.  Warnings always are, since skipped directories
are reported in them. -/
def ofVerbosity : (requests : Nat) → Level
  | 0 => warn
  | 1 => info
  | 2 => debug
  | _ => trace

/-- Whether records of the second level are shown down to the first. -/
def shows (last level : Level) : Bool := level.verbosity ≤ last.verbosity

theorem shows_ofVerbosity (requests : Nat) (level : Level) :
    (ofVerbosity requests).shows level = true ↔ level.verbosity ≤ requests := by
  match requests with
  | 0 | 1 | 2 => simp [ofVerbosity, shows, verbosity]
  | requests + 3 => cases level <;> simp [ofVerbosity, shows, verbosity]

end Level

/-- A note about the work.  `notWriting` is about a file that a dry run leaves as it
is, and `totals` about a whole run. -/
inductive Record where
  | ruleMatched (rule : Specifier.Rule)
  | noChange (path : Path)
  | notWriting (path : Path)
  | cannotList (path : Path) (cause : Cause)
  | excluding (path : Path)
  | foundCandidate (path : Path)
  | skipping (directory : SkippedDirectory)
  | totals (candidates updated skipped : Nat)
  deriving DecidableEq, Repr

namespace Record

def level : Record → Level
  | ruleMatched _ | foundCandidate _ => .trace
  | noChange _ | notWriting _ | cannotList .. | excluding _ => .debug
  | totals .. => .info
  | skipping _ => .warn

def text : Record → String
  | ruleMatched rule => "Rule " ++ rule.name ++ " matched"
  | noChange path => "No change: " ++ path.display
  | notWriting path => "Dry run, not writing " ++ path.display
  | cannotList path cause =>
      "Cannot list " ++ path.display ++ ": IO error for operation on " ++ path.display ++
        ": " ++ cause.message
  | excluding path => "Excluding directory: " ++ path.display
  | foundCandidate path => "Found candidate: " ++ path.display
  | skipping directory =>
      "Skipping non-existent or unreadable directory: " ++ directory.display
  | totals candidates updated skipped =>
      toString candidates ++ " candidate(s), " ++ toString updated ++ " updated, " ++
        toString skipped ++ " directory(ies) skipped"

def display (record : Record) : String := record.level.name ++ " " ++ record.text

end Record

/-- The record of a finding.  A root that is no directory leaves none. -/
def Finding.record? : Finding → Option Record
  | candidate path => some (.foundCandidate path)
  | excluded path => some (.excluding path)
  | skipped ⟨path, .unlistable cause⟩ => some (.cannotList path cause)
  | skipped ⟨_, .notADirectory⟩ => none

end ImportSuffix
