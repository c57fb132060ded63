import ImportSuffix.Message
import ImportSuffix.Settings.Basic
import ImportSuffix.Specifier.Extender
import ImportSuffix.Survey.Report

/-!
A run: take a survey, then update each file that was found.

Every activity says what it printed, how it left the disk, and its result.  The
first file that cannot be read or written ends a run; what was done before stays
done.
-/

namespace ImportSuffix

open Specifier

/-- What is left of an activity: its messages in order, the disk after it, and a
result or the failure that ended it. -/
structure Activity (Result : Type) where
  messages : List Message
  disk : Disk
  result : Except Failure Result

/-- The text of a file. -/
def readText (disk : Disk) (path : Path) : Except Failure String :=
  match disk.read path with
  | .error cause => .error (.read path cause)
  | .ok text => .ok text

/-- Give a file a text.  A file that does not exist is made. -/
def writeText (disk : Disk) (path : Path) (text : String) : Activity Unit :=
  match disk.write path text with
  | .error cause => ⟨[], disk, .error (.write path cause)⟩
  | .ok written => ⟨[], written, .ok ()⟩

section

variable {disk : Disk} {path : Path} {text : String} {cause : Cause}

theorem readText_of_error (unread : disk.read path = .error cause) :
    readText disk path = .error (.read path cause) := by
  rw [readText, unread]

theorem readText_eq_ok_iff : readText disk path = .ok text ↔ disk.read path = .ok text := by
  unfold readText
  cases disk.read path <;> simp

theorem writeText_of_error (unwritten : disk.write path text = .error cause) :
    writeText disk path text = ⟨[], disk, .error (.write path cause)⟩ := by
  rw [writeText, unwritten]

theorem writeText_of_write {after : Disk} (written : disk.write path text = .ok after) :
    writeText disk path text = ⟨[], after, .ok ()⟩ := by
  rw [writeText, written]

@[simp] theorem messages_writeText (disk : Disk) (path : Path) (text : String) :
    (writeText disk path text).messages = [] := by
  cases written : disk.write path text with
  | error cause => rw [writeText_of_error written]
  | ok after => rw [writeText_of_write written]

end

/-- What became of one file.  In a dry run, it is updated if a real run would write
it. -/
inductive Outcome where
  | updated
  | unchanged
  deriving DecidableEq, Repr

/-- Extend the specifiers of one file in place.  It is written only if its text
changes. -/
def updateFile (extender : Extender) (dryRun : Bool) (disk : Disk) (path : Path) :
    Activity Outcome :=
  match readText disk path with
  | .error failure => ⟨[], disk, .error failure⟩
  | .ok text =>
      let extended := extender.apply text
      let matched := extended.matched.map fun rule => Message.log (.ruleMatched rule)
      if extended.text = text then ⟨matched ++ [.log (.noChange path)], disk, .ok .unchanged⟩
      else if dryRun then ⟨matched ++ [.log (.notWriting path)], disk, .ok .updated⟩
      else
        let writing := writeText disk path extended.text
        ⟨matched ++ writing.messages, writing.disk, writing.result.map fun _ => .updated⟩

def announcement (dryRun : Bool) (path : Path) : Message :=
  if dryRun then .wouldUpdate path else .updated path

/-- Update files one after the other, up to the first failure.  The result lists
those that changed. -/
def updateFiles (extender : Extender) (dryRun : Bool) : Disk → List Path → Activity (List Path)
  | disk, [] => ⟨[], disk, .ok []⟩
  | disk, path :: rest =>
      let first := updateFile extender dryRun disk path
      match first.result with
      | .error failure => ⟨first.messages, first.disk, .error failure⟩
      | .ok .unchanged =>
          let others := updateFiles extender dryRun first.disk rest
          { others with messages := first.messages ++ others.messages }
      | .ok .updated =>
          let others := updateFiles extender dryRun first.disk rest
          { others with
            messages := first.messages ++ announcement dryRun path :: others.messages
            result := others.result.map (path :: ·) }

/-- What a whole run found and changed. -/
structure Summary where
  candidates : List Path
  updated : List Path
  skipped : List SkippedDirectory
  deriving DecidableEq, Repr

/-- The messages of a run before it touches the first file. -/
def opening (settings : Settings) (survey : Survey) : List Message :=
  [.scanning settings.root] ++
    (if settings.excluded.isEmpty then [] else [.excluding settings.excluded]) ++
    survey.records.map .log ++
    survey.skipped.map (fun directory => .log (.skipping directory)) ++
    [.found settings.targetName] ++
    survey.candidates.map .candidate

/-- Take a survey below the root and update what is found. -/
def run (settings : Settings) (disk : Disk) : Activity Summary :=
  let survey := Survey.take settings disk
  let updating :=
    updateFiles (.ofExtension settings.extension) settings.dryRun disk survey.candidates
  let begun := opening settings survey ++ updating.messages
  match updating.result with
  | .error failure => ⟨begun, updating.disk, .error failure⟩
  | .ok updated =>
      let totals :=
        Record.totals survey.candidates.length updated.length survey.skipped.length
      ⟨begun ++ [.done settings.targetName, .log totals], updating.disk,
        .ok ⟨survey.candidates, updated, survey.skipped⟩⟩

end ImportSuffix
