import ImportSuffix.Program
import ImportSuffix.Proofs.CommandLine.Verbosity
import ImportSuffix.Proofs.Program.LogLines
import ImportSuffix.Proofs.Run.Report

/-!
Asking for more output.

How often it is asked for decides which log records are shown, and nothing else: what is read
from the command line apart from that, what is done, how it ends and what is reported are the
same.  Warnings are always shown, and there is one for every directory that is skipped; it is a
line that names the directory and the reason, if no control character in the path breaks it.
-/

namespace ImportSuffix

open Text CommandLine Specifier

namespace Level

theorem ofVerbosity_min (requests : Nat) :
    ofVerbosity (min Arguments.verboseLimit requests) = ofVerbosity requests := by
  match requests with
  | 0 | 1 | 2 => rfl
  | requests + 3 =>
      have many : 3 ≤ min Arguments.verboseLimit (requests + 3) :=
        Nat.le_min.mpr ⟨by decide, Nat.le_add_left 3 requests⟩
      obtain ⟨more, same⟩ := Nat.exists_eq_add_of_le' many
      rw [same]
      rfl

theorem shows_of_le {requests others : Nat} {level : Level} (within : requests ≤ others)
    (shows : (ofVerbosity requests).shows level = true) :
    (ofVerbosity others).shows level = true :=
  (shows_ofVerbosity others level).mpr
    (Nat.le_trans ((shows_ofVerbosity requests level).mp shows) within)

end Level

namespace Message

def isWarning (message : Message) : Bool :=
  message.record?.any fun record => record.level == .warn

@[simp] theorem isWarning_log (record : Record) :
    (log record).isWarning = (record.level == .warn) := rfl

section

variable (messages : List Message)

theorem filter_shownAt_filter_shownAt {requests others : Nat} (within : requests ≤ others) :
    (messages.filter (·.shownAt (.ofVerbosity others))).filter
        (·.shownAt (.ofVerbosity requests)) =
      messages.filter (·.shownAt (.ofVerbosity requests)) := by
  rw [List.filter_filter]
  apply List.filter_congr
  intro message _
  cases message with
  | log record =>
      cases shows : (log record).shownAt (.ofVerbosity requests) with
      | false => rfl
      | true => exact Level.shows_of_le within shows
  | _ => rfl

theorem filterMap_record?_filter_shownAt (last : Level) :
    (messages.filter (·.shownAt last)).filterMap record? =
      (messages.filterMap record?).filter fun record => last.shows record.level := by
  rw [List.filterMap_filter, List.filter_filterMap]
  congr 1
  funext message
  cases message with
  | log record => cases last.shows record.level <;> rfl
  | _ => rfl

/-- No request is needed to see a warning. -/
theorem filter_isWarning_filter_shownAt (requests : Nat) :
    (messages.filter (·.shownAt (.ofVerbosity requests))).filter isWarning =
      messages.filter isWarning := by
  rw [List.filter_filter]
  apply List.filter_congr
  intro message _
  cases isWarning : message.isWarning with
  | false => rfl
  | true =>
      cases message with
      | log record =>
          rw [isWarning_log, beq_iff_eq] at isWarning
          have shown : (Level.ofVerbosity requests).shows record.level = true := by
            rw [isWarning, Level.shows_ofVerbosity]
            exact Nat.zero_le requests
          exact shown
      | _ => cases isWarning

end

end Message

/-- Only a directory that is skipped is worth a warning. -/
theorem Record.level_eq_warn_iff {record : Record} :
    record.level = .warn ↔ ∃ directory, record = .skipping directory := by
  cases record <;> simp [Record.level]

/-- No update gives a warning, and none of the lines about updated files is one. -/
theorem filter_isWarning_updateFiles (extender : Extender) (dryRun : Bool) (disk : Disk)
    (paths : List Path) :
    (updateFiles extender dryRun disk paths).messages.filter Message.isWarning = [] := by
  rw [List.filter_eq_nil_iff]
  intro message printed isWarning
  rcases announcement_or_record_of_mem_updateFiles printed with ⟨path, same⟩ | ⟨record, same, other⟩
  · rw [same] at isWarning
    cases dryRun <;> cases isWarning
  · rw [same, Message.isWarning_log, beq_iff_eq] at isWarning
    exact other isWarning

theorem filter_isWarning_opening (settings : Settings) (disk : Disk) :
    (opening settings (Survey.take settings disk)).filter Message.isWarning =
      (Survey.take settings disk).skipped.map fun directory => .log (.skipping directory) := by
  have records : ((Survey.take settings disk).records.map Message.log).filter
      Message.isWarning = [] := by
    rw [List.filter_eq_nil_iff]
    intro message membership isWarning
    obtain ⟨record, noted, same⟩ := List.mem_map.mp membership
    obtain ⟨finding, _, found⟩ := List.mem_filterMap.mp noted
    rw [← same, Message.isWarning_log, beq_iff_eq, Record.level_eq_warn_iff] at isWarning
    obtain ⟨directory, isSkipping⟩ := isWarning
    rw [isSkipping] at found
    unfold Finding.record? at found
    split at found <;> cases found
  have skipped : ((Survey.take settings disk).skipped.map fun directory =>
      Message.log (.skipping directory)).filter Message.isWarning =
      (Survey.take settings disk).skipped.map fun directory => .log (.skipping directory) := by
    simp [List.filter_map, Function.comp_def, Record.level]
  have candidates : ((Survey.take settings disk).candidates.map Message.candidate).filter
      Message.isWarning = [] := by
    simp [List.filter_map, Function.comp_def, Message.isWarning, Message.record?]
  unfold opening
  simp only [List.filter_append, records, skipped, candidates, List.append_nil]
  cases settings.excluded.isEmpty <;> exact List.append_nil _

/-- The warnings of a run are about the directories that its survey skipped. -/
theorem filter_isWarning_run (settings : Settings) (disk : Disk) :
    (run settings disk).messages.filter Message.isWarning =
      (Survey.take settings disk).skipped.map fun directory => .log (.skipping directory) := by
  have updating : (settings.updating disk).messages.filter Message.isWarning = [] :=
    filter_isWarning_updateFiles _ _ disk _
  cases ended : (settings.updating disk).result with
  | error failure =>
      rw [run_of_failed ended, List.filter_append, updating, List.append_nil,
        filter_isWarning_opening]
  | ok updated =>
      rw [run_of_finished ended, List.filter_append, List.filter_append, updating,
        List.append_nil, filter_isWarning_opening]
      exact List.append_nil _

namespace Program

/-- Two executions that differ only in what is shown of the log: the first one shows records down
to a level, the second one at least these. -/
structure Quieter (last : Level) (fewer more : Execution) : Prop where
  status : fewer.status = more.status
  complaint : fewer.complaint = more.complaint
  disk : fewer.disk = more.disk
  report : fewer.messages.filter Message.isReport = more.messages.filter Message.isReport
  records : fewer.messages.filterMap Message.record? =
    (more.messages.filterMap Message.record?).filter fun record => last.shows record.level
  /-- Records keep their places between the lines of the report. -/
  messages : fewer.messages = more.messages.filter (·.shownAt last)

theorem Quieter.of_messages {last : Level} {fewer more : Execution}
    (status : fewer.status = more.status) (complaint : fewer.complaint = more.complaint)
    (disk : fewer.disk = more.disk)
    (messages : fewer.messages = more.messages.filter (·.shownAt last)) :
    Quieter last fewer more where
  status := status
  complaint := complaint
  disk := disk
  report := by rw [messages, Message.filter_isReport_filter_shownAt]
  records := by rw [messages, Message.filterMap_record?_filter_shownAt]
  messages := messages

section

variable {disk : Disk} {words others : List Bytes} {fewer more arguments : Arguments}
  {settings : Settings}

theorem execute_eq_perform (read : parse words = .ok arguments) (disk : Disk) :
    execute words disk = perform arguments disk := by
  rw [execute, read]

theorem messages_perform (accepted : arguments.settingsOn disk = .ok settings) :
    (perform arguments disk).messages =
      (run settings disk).messages.filter (·.shownAt (.ofVerbosity arguments.verbose)) := by
  simp only [perform, accepted]
  cases (run settings disk).result <;> rfl

theorem settingsOn_eq_of_quiet (same : fewer.quiet = more.quiet) (disk : Disk) :
    fewer.settingsOn disk = more.settingsOn disk := by
  unfold Arguments.settingsOn
  cases disk.currentDirectory with
  | error cause => rfl
  | ok directory => exact Arguments.settings_eq_of_quiet same directory

/-- More requests show more of the log, and change nothing else. -/
theorem quieter_perform (same : fewer.quiet = more.quiet) (within : fewer.verbose ≤ more.verbose)
    (disk : Disk) :
    Quieter (.ofVerbosity fewer.verbose) (perform fewer disk) (perform more disk) := by
  have sameSettings := settingsOn_eq_of_quiet same disk
  cases accepted : more.settingsOn disk with
  | error problem =>
      rw [accepted] at sameSettings
      simp only [perform, accepted, sameSettings]
      exact .of_messages rfl rfl rfl rfl
  | ok settings =>
      rw [accepted] at sameSettings
      have shown := Message.filter_shownAt_filter_shownAt (run settings disk).messages within
      simp only [perform, accepted, sameSettings]
      cases (run settings disk).result with
      | error problem => exact .of_messages rfl rfl rfl shown.symm
      | ok summary => exact .of_messages rfl rfl rfl shown.symm

theorem quieter_execute (read : parse words = .ok fewer) (readOthers : parse others = .ok more)
    (same : fewer.quiet = more.quiet) (within : fewer.verbose ≤ more.verbose) (disk : Disk) :
    Quieter (.ofVerbosity fewer.verbose) (execute words disk) (execute others disk) := by
  rw [execute_eq_perform read, execute_eq_perform readOthers]
  exact quieter_perform same within disk

theorem quieter_execute_of_adds {first second : List Bytes} {requests further : Nat}
    (read : parse words = .ok arguments) (adds : Adds words requests first)
    (addsFurther : Adds words further second) (within : requests ≤ further) (disk : Disk) :
    Quieter (.ofVerbosity (arguments.verbose + requests))
      (execute first disk) (execute second disk) := by
  have readFirst := adds.parse_eq
  have readSecond := addsFurther.parse_eq
  rw [read] at readFirst readSecond
  have limited : (arguments.louder requests).verbose ≤ (arguments.louder further).verbose := by
    simp only [Arguments.louder]
    omega
  rw [← Level.ofVerbosity_min]
  exact quieter_execute readFirst readSecond rfl limited disk

theorem filter_isWarning_execute (read : parse words = .ok arguments)
    (accepted : arguments.settingsOn disk = .ok settings) :
    (execute words disk).messages.filter Message.isWarning =
      (Survey.take settings disk).skipped.map fun directory => .log (.skipping directory) := by
  rw [execute_eq_perform read, messages_perform accepted,
    Message.filter_isWarning_filter_shownAt, filter_isWarning_run]

end

/-- How much output is asked for decides about the log only, and not about its warnings. -/
structure LogOnly (disk : Disk) : Prop where
  /-- Of two command lines that say the same apart from requests, the one with fewer of them does
  the same, ends in the same way, and shows those records of the other one that are important
  enough. -/
  quieter : ∀ words others fewer more, parse words = .ok fewer → parse others = .ok more →
    fewer.quiet = more.quiet → fewer.verbose ≤ more.verbose →
    Quieter (.ofVerbosity fewer.verbose) (execute words disk) (execute others disk)
  /-- Lines to which requests are added, at any places, say the same. -/
  added : ∀ words first second arguments requests further, parse words = .ok arguments →
    Adds words requests first → Adds words further second → requests ≤ further →
    Quieter (.ofVerbosity (arguments.verbose + requests))
      (execute first disk) (execute second disk)
  /-- However many requests there are, each directory that is skipped has one warning. -/
  warned : ∀ words arguments settings, parse words = .ok arguments →
    arguments.settingsOn disk = .ok settings →
    (execute words disk).messages.filter Message.isWarning =
      (Survey.take settings disk).skipped.map fun directory => .log (.skipping directory)
  /-- The warning is printed as one line with the path and the reason exactly if the path as it is
  shown has no control character but tabs, form feeds and carriage returns. -/
  lined : ∀ settings, ∀ directory ∈ (Survey.take settings disk).skipped,
    ((Message.log (.skipping directory)).LineShows
        [directory.path.display, directory.reason.message] ↔
      ∀ char ∈ directory.path.display.toList, breaksLine char = false)
  worded : ∀ settings, ∀ directory ∈ (Survey.take settings disk).skipped,
    (∀ char ∈ directory.path.display.toList, breaksLine char = false) →
    (Message.log (.skipping directory)).output =
      "WARN Skipping non-existent or unreadable directory: " ++
        (directory.path.display ++ " (" ++ directory.reason.message ++ ")") ++ "\n"

theorem execute_verbosity (disk : Disk) : LogOnly disk where
  quieter _ _ _ _ read readOthers same within := quieter_execute read readOthers same within disk
  added _ _ _ _ _ _ read adds addsFurther within :=
    quieter_execute_of_adds read adds addsFurther within disk
  warned _ _ _ := filter_isWarning_execute
  lined _ _ := Survey.lineShows_skipping_iff
  worded _ _ skipped unbroken := Message.output_log (Survey.unbroken_skipping skipped unbroken)

/-- What the survey skips that some arguments ask for. -/
def skipped? (arguments : Arguments) (disk : Disk) : Option (List SkippedDirectory) :=
  (arguments.settingsOn disk).toOption.map fun settings => (Survey.take settings disk).skipped

theorem skipped?_eq_some_iff {arguments : Arguments} {disk : Disk}
    {skipped : List SkippedDirectory} : skipped? arguments disk = some skipped ↔
      ∃ settings, arguments.settingsOn disk = .ok settings ∧
        (Survey.take settings disk).skipped = skipped := by
  unfold skipped?
  cases arguments.settingsOn disk <;> simp [Except.toOption]

/-- Requests before and behind the target, which does not exist. -/
theorem execute_verbosity_missing :
    let disk : Disk := ⟨.directory [(encode "w", .directory [])], [encode "w"]⟩
    let arguments : Arguments := ⟨some (.ofText "packages"), [], "index.ts", ".js", false, 0⟩
    let words := ["packages"].map encode
    let longer := ["-vv", "packages", "--verbose"].map encode
    let missing : SkippedDirectory := ⟨.ofText "/w/packages", .unlistable (.system .noEntry)⟩
    parse words = .ok arguments ∧ Adds words 3 longer ∧
      Quieter .warn (execute words disk) (execute longer disk) ∧
      (execute longer disk).messages.filter Message.isWarning = [.log (.skipping missing)] ∧
      (Message.log (.skipping missing)).LineShows
        [missing.path.display, missing.reason.message] := by
  intro disk arguments words longer missing
  have read : parse words = .ok arguments := by decide +kernel
  have readBoth : parse (["-vv", "packages"].map encode) = .ok { arguments with verbose := 2 } := by
    decide +kernel
  have readLonger : parse longer = .ok { arguments with verbose := 3 } := by decide +kernel
  have settled : Settled [] := by
    intro state took pending isPending
    cases took
    cases isPending
  have asksFirst : (Item.verboseLetters 1).verbosity ≠ 0 := by decide
  have first : Adds words 2 ([] ++ (Item.verboseLetters 1).spelled ++ words) :=
    .request .nothing ⟨by simp, _, rfl⟩ asksFirst (.inl settled)
  have both : Adds words 2 (["-vv", "packages"].map encode ++ []) := by
    have spelled : [] ++ (Item.verboseLetters 1).spelled ++ words =
        ["-vv", "packages"].map encode ++ [] := by decide
    rwa [spelled] at first
  have asks : Item.verbose.verbosity ≠ 0 := by decide
  have adds : Adds words 3 (["-vv", "packages"].map encode ++ Item.verbose.spelled ++ []) :=
    .request both ⟨by decide, _, readBoth⟩ asks (.inr (by simp))
  have surveyed : skipped? arguments disk = some [missing] := by decide +kernel
  obtain ⟨settings, accepted, skipped⟩ := skipped?_eq_some_iff.mp surveyed
  have among : missing ∈ (Survey.take settings disk).skipped := by
    rw [skipped]
    exact List.mem_cons_self
  have unbroken : Unbroken missing.path.display := by decide +kernel
  obtain ⟨_, quieter, warned, lined, _⟩ := execute_verbosity disk
  refine ⟨read, adds, quieter words words longer arguments 0 3 read .nothing adds (by decide), ?_,
    (lined settings missing among).mpr unbroken⟩
  rw [warned longer _ settings readLonger accepted, skipped]
  rfl

/-- An operating system command without an end in a name, which takes away the name, the reason
and the end of the line: the next message goes on behind the path of the working directory. -/
theorem not_lineShows_skipping_unended :
    let disk : Disk := ⟨.directory [(encode "w", .directory [])], [encode "w"]⟩
    let words := [encode "\x1b]x"]
    let directory : SkippedDirectory :=
      ⟨.ofText "/w/\x1b]x", .unlistable (.system .noEntry)⟩
    (∃ arguments settings, parse words = .ok arguments ∧
      arguments.settingsOn disk = .ok settings ∧
      (Survey.take settings disk).skipped = [directory]) ∧
    (execute words disk).messages.map Message.output =
      ["Scanning \"/w/\x1b]x\"\n",
        "WARN Skipping non-existent or unreadable directory: /w/",
        "Found index.ts files:\n", "Done processing index.ts files.\n"] ∧
    (execute words disk).messages.filter Message.isWarning = [.log (.skipping directory)] ∧
    ¬(Message.log (.skipping directory)).LineShows
      [directory.path.display, directory.reason.message] := by
  intro disk words directory
  let arguments : Arguments := ⟨some (.ofText "\x1b]x"), [], "index.ts", ".js", false, 0⟩
  have read : parse words = .ok arguments := by decide +kernel
  have surveyed : skipped? arguments disk = some [directory] := by decide +kernel
  obtain ⟨settings, accepted, skipped⟩ := skipped?_eq_some_iff.mp surveyed
  refine ⟨⟨arguments, settings, read, accepted, skipped⟩, by decide +kernel, ?_, ?_⟩
  · rw [filter_isWarning_execute read accepted, skipped]
    rfl
  · intro shows
    have unbroken : Unbroken directory.path.display :=
      Message.unbroken_of_lineShows shows List.mem_cons_self
    revert unbroken
    decide +kernel

end Program

end ImportSuffix
