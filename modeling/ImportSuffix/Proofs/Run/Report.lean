import ImportSuffix.Proofs.Disk.Names
import ImportSuffix.Run

/-!
What a run prints, apart from log records.

The report begins with what the survey found, goes on with a line for each file that is
updated, and ends with a line of its own only if no file fails.  No other line reads like
that one.
-/

namespace ImportSuffix

open Specifier

namespace Message

def isReport (message : Message) : Bool := message.record?.isNone

@[simp] theorem isReport_log (record : Record) : (log record).isReport = false := rfl

theorem shownAt_of_isReport {message : Message} (last : Level)
    (isReport : message.isReport = true) : message.shownAt last = true := by
  cases message with
  | log record => cases isReport
  | _ => rfl

theorem filter_isReport_filter_shownAt (last : Level) (messages : List Message) :
    (messages.filter (·.shownAt last)).filter isReport = messages.filter isReport := by
  rw [List.filter_filter]
  apply List.filter_congr
  intro message _
  cases isReport : message.isReport with
  | false => rfl
  | true => exact shownAt_of_isReport last isReport

/-- Whether a message belongs before the first update. -/
def isOpening : Message → Bool
  | scanning _ | excluding _ | found _ | candidate _ => true
  | _ => false

end Message

/-- The messages of an activity without its log records. -/
def Activity.report {Result : Type} (activity : Activity Result) : List Message :=
  activity.messages.filter Message.isReport

theorem filter_isReport_log {Source : Type} (record : Source → Record) (sources : List Source) :
    (sources.map fun source => Message.log (record source)).filter Message.isReport = [] := by
  simp [List.filter_map, Function.comp_def]

/-- The report of a run before it touches the first file. -/
def openingReport (settings : Settings) (survey : Survey) : List Message :=
  [.scanning settings.root] ++
    (if settings.excluded.isEmpty then [] else [.excluding settings.excluded]) ++
    [.found settings.targetName] ++
    survey.candidates.map .candidate

theorem filter_isReport_opening (settings : Settings) (survey : Survey) :
    (opening settings survey).filter Message.isReport = openingReport settings survey := by
  have records : (survey.records.map Message.log).filter Message.isReport = [] :=
    filter_isReport_log id survey.records
  have skipped := filter_isReport_log Record.skipping survey.skipped
  have candidates : (survey.candidates.map Message.candidate).filter Message.isReport =
      survey.candidates.map .candidate := by
    apply List.filter_eq_self.mpr
    intro message membership
    obtain ⟨path, _, rfl⟩ := List.mem_map.mp membership
    rfl
  unfold opening openingReport
  simp only [List.filter_append, records, skipped, candidates, List.append_nil]
  cases settings.excluded.isEmpty <;> rfl

theorem isOpening_of_mem_openingReport {settings : Settings} {survey : Survey} {message : Message}
    (membership : message ∈ openingReport settings survey) : message.isOpening = true := by
  simp only [openingReport, List.mem_append, List.mem_map] at membership
  rcases membership with ((scanning | excluding) | found) | ⟨path, _, rfl⟩
  · rw [List.mem_singleton.mp scanning]
    rfl
  · split at excluding
    · cases excluding
    · rw [List.mem_singleton.mp excluding]
      rfl
  · rw [List.mem_singleton.mp found]
    rfl
  · rfl

section

variable {extender : Extender} {dryRun : Bool} {disk : Disk} {message : Message}

/-- About a single file there are only log records, and none of them is a warning. -/
theorem exists_record_of_mem_updateFile {path : Path}
    (printed : message ∈ (updateFile extender dryRun disk path).messages) :
    ∃ record, message = .log record ∧ record.level ≠ .warn := by
  have matched {rules : List Rule}
      (among : message ∈ rules.map fun rule => Message.log (.ruleMatched rule)) :
      ∃ record, message = .log record ∧ record.level ≠ .warn := by
    obtain ⟨rule, _, same⟩ := List.mem_map.mp among
    exact ⟨.ruleMatched rule, same.symm, by simp [Record.level]⟩
  rw [updateFile] at printed
  cases held : readText disk path with
  | error failure =>
      rw [held] at printed
      cases printed
  | ok text =>
      simp only [held] at printed
      split at printed
      next =>
        rcases List.mem_append.mp printed with early | last
        · exact matched early
        · exact ⟨.noChange path, List.mem_singleton.mp last, by simp [Record.level]⟩
      next =>
        split at printed
        next =>
          rcases List.mem_append.mp printed with early | last
          · exact matched early
          · exact ⟨.notWriting path, List.mem_singleton.mp last, by simp [Record.level]⟩
        next =>
          rw [messages_writeText, List.append_nil] at printed
          exact matched printed

/-- Beside such records, updates print nothing but which files they concern. -/
theorem announcement_or_record_of_mem_updateFiles {paths : List Path}
    (printed : message ∈ (updateFiles extender dryRun disk paths).messages) :
    (∃ path, message = announcement dryRun path) ∨
      ∃ record, message = .log record ∧ record.level ≠ .warn := by
  induction paths generalizing disk with
  | nil => cases printed
  | cons path rest inductionHypothesis =>
      rw [updateFiles] at printed
      cases first : (updateFile extender dryRun disk path).result with
      | error failure =>
          simp only [first] at printed
          exact .inr (exists_record_of_mem_updateFile printed)
      | ok outcome =>
          cases outcome with
          | unchanged =>
              simp only [first] at printed
              rcases List.mem_append.mp printed with early | later
              · exact .inr (exists_record_of_mem_updateFile early)
              · exact inductionHypothesis later
          | updated =>
              simp only [first] at printed
              rcases List.mem_append.mp printed with early | later
              · exact .inr (exists_record_of_mem_updateFile early)
              · rcases List.mem_cons.mp later with here | others
                · exact .inl ⟨path, here⟩
                · exact inductionHypothesis others

theorem report_updateFile (extender : Extender) (dryRun : Bool) (disk : Disk) (path : Path) :
    (updateFile extender dryRun disk path).report = [] := by
  rw [Activity.report, List.filter_eq_nil_iff]
  intro message printed isReport
  obtain ⟨record, same, _⟩ := exists_record_of_mem_updateFile printed
  rw [same] at isReport
  cases isReport

theorem exists_announcement_of_mem_report {paths : List Path}
    (membership : message ∈ (updateFiles extender dryRun disk paths).report) :
    ∃ path, message = announcement dryRun path := by
  obtain ⟨printed, isReport⟩ := List.mem_filter.mp membership
  rcases announcement_or_record_of_mem_updateFiles printed with announced | ⟨record, same, _⟩
  · exact announced
  · rw [same] at isReport
    cases isReport

theorem updateFile_disk_of_dryRun (extender : Extender) (disk : Disk) (path : Path) :
    (updateFile extender true disk path).disk = disk := by
  rw [updateFile]
  cases readText disk path with
  | error failure => rfl
  | ok text => by_cases same : (extender.apply text).text = text <;> simp [same]

end

namespace Message

variable {message : Message}

end Message

/-- The last line of a report, which a run has that comes to its end. -/
def closingReport (settings : Settings) : Except Failure Summary → List Message
  | .ok _ => [.done settings.targetName]
  | .error _ => []

/-- The updates of a run. -/
def Settings.updating (settings : Settings) (disk : Disk) : Activity (List Path) :=
  updateFiles (.ofExtension settings.extension) settings.dryRun disk
    (Survey.take settings disk).candidates

section

variable {settings : Settings} {disk : Disk}

theorem run_of_failed {failure : Failure}
    (failed : (settings.updating disk).result = .error failure) :
    run settings disk =
      ⟨opening settings (Survey.take settings disk) ++ (settings.updating disk).messages,
        (settings.updating disk).disk, .error failure⟩ := by
  unfold Settings.updating at *
  simp only [run, failed]

theorem run_of_finished {updated : List Path}
    (finished : (settings.updating disk).result = .ok updated) :
    run settings disk =
      ⟨opening settings (Survey.take settings disk) ++ (settings.updating disk).messages ++
          [.done settings.targetName, .log (.totals (Survey.take settings disk).candidates.length
            updated.length (Survey.take settings disk).skipped.length)],
        (settings.updating disk).disk,
        .ok ⟨(Survey.take settings disk).candidates, updated,
          (Survey.take settings disk).skipped⟩⟩ := by
  unfold Settings.updating at *
  simp only [run, finished]

theorem run_disk (settings : Settings) (disk : Disk) :
    (run settings disk).disk = (settings.updating disk).disk := by
  cases ended : (settings.updating disk).result with
  | error failure => rw [run_of_failed ended]
  | ok updated => rw [run_of_finished ended]

theorem run_result (settings : Settings) (disk : Disk) :
    (run settings disk).result = (settings.updating disk).result.map fun updated =>
      ⟨(Survey.take settings disk).candidates, updated, (Survey.take settings disk).skipped⟩ := by
  cases ended : (settings.updating disk).result with
  | error failure =>
      rw [run_of_failed ended]
      rfl
  | ok updated =>
      rw [run_of_finished ended]
      rfl

theorem report_run (settings : Settings) (disk : Disk) :
    (run settings disk).report =
      openingReport settings (Survey.take settings disk) ++ (settings.updating disk).report ++
        closingReport settings (run settings disk).result := by
  cases ended : (settings.updating disk).result with
  | error failure =>
      rw [run_of_failed ended, Activity.report, Activity.report, List.filter_append,
        filter_isReport_opening, closingReport, List.append_nil]
  | ok updated =>
      rw [run_of_finished ended, Activity.report, Activity.report, List.filter_append,
        List.filter_append, filter_isReport_opening]
      rfl

/-- A run that fails reports no more than what it found and which files it updated. -/
theorem mem_report_of_failed {failure : Failure} {message : Message}
    (failed : (run settings disk).result = .error failure)
    (membership : message ∈ (run settings disk).report) :
    message ∈ openingReport settings (Survey.take settings disk) ∨
      ∃ path, message = announcement settings.dryRun path := by
  rw [report_run, failed, closingReport, List.append_nil, List.mem_append] at membership
  exact membership.imp_right exists_announcement_of_mem_report

/-- A run that fails does not say that it is done. -/
theorem done_not_mem_messages_of_failed {failure : Failure}
    (failed : (run settings disk).result = .error failure) (targetName : String) :
    Message.done targetName ∉ (run settings disk).messages := by
  intro membership
  rcases mem_report_of_failed failed (List.mem_filter.mpr ⟨membership, rfl⟩) with
    opened | ⟨path, same⟩
  · cases isOpening_of_mem_openingReport opened
  · cases dryRun : settings.dryRun <;> simp [announcement, dryRun] at same

end

end ImportSuffix
