import ImportSuffix.Proofs.Run.Update
import ImportSuffix.Proofs.Survey.Candidates

/-!
Runs, told from the disk before them.

The candidates of a survey lead to different files.  So the result of a run and its
report follow from what is read of them before the first update, and it matters to
neither whether anything is written.
-/

namespace ImportSuffix

open Specifier

variable {before : Disk}

theorem Settings.updating_foretold (wellFormed : before.WellFormed) (settings : Settings) :
    Foretold (.ofExtension settings.extension) settings.dryRun before
      (Survey.take settings before).candidates (settings.updating before) :=
  updateFiles_foretold _ _ (Survey.pairwise_apart_candidates wellFormed)

/-- A run fails as its first candidate does that cannot be read. -/
theorem run_result_foretold (wellFormed : before.WellFormed) (settings : Settings) :
    (run settings before).result =
      match (Survey.take settings before).candidates.findSome? before.failure? with
      | none => .ok ⟨(Survey.take settings before).candidates,
          (Survey.take settings before).candidates.filter
            (before.changes (.ofExtension settings.extension)),
          (Survey.take settings before).skipped⟩
      | some failure => .error failure := by
  rw [run_result, (settings.updating_foretold wellFormed).result]
  cases (Survey.take settings before).candidates.findSome? before.failure? <;> rfl

theorem report_run_foretold (wellFormed : before.WellFormed) (settings : Settings) :
    (run settings before).report =
      openingReport settings (Survey.take settings before) ++
        ((before.legible (Survey.take settings before).candidates).filter
          (before.changes (.ofExtension settings.extension))).map
            (announcement settings.dryRun) ++
        closingReport settings (run settings before).result := by
  rw [report_run, (settings.updating_foretold wellFormed).report]

theorem run_error_iff (wellFormed : before.WellFormed) {settings : Settings} {failure : Failure} :
    (run settings before).result = .error failure ↔
      (Survey.take settings before).candidates.findSome? before.failure? = some failure := by
  rw [run_result_foretold wellFormed]
  cases (Survey.take settings before).candidates.findSome? before.failure? <;> simp

theorem run_ok_iff (wellFormed : before.WellFormed) {settings : Settings} {summary : Summary} :
    (run settings before).result = .ok summary ↔
      (Survey.take settings before).candidates.findSome? before.failure? = none ∧
      summary = ⟨(Survey.take settings before).candidates,
        (Survey.take settings before).candidates.filter
          (before.changes (.ofExtension settings.extension)),
        (Survey.take settings before).skipped⟩ := by
  rw [run_result_foretold wellFormed]
  cases (Survey.take settings before).candidates.findSome? before.failure? <;> simp [eq_comm]

end ImportSuffix
