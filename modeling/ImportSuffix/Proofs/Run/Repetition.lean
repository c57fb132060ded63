import ImportSuffix.Proofs.Run.DryRun
import ImportSuffix.Proofs.Settings.Extension

/-!
Runs that are repeated.

A run changes nothing but the contents of files, which no survey reads.  So the same run, made
again, meets the same candidates.  Their texts are extended already, and extending them once
more leaves them as they are.
-/

namespace ImportSuffix

open Text Specifier

theorem Disk.SameKinds.survey_eq {first second : Disk} (same : first.SameKinds second)
    (wellFormed : first.WellFormed) (settings : Settings) :
    Survey.take settings first = Survey.take settings second := by
  rw [Survey.take, Survey.take, same.findings_eq wellFormed]

section

variable {extender : Extender} {disk : Disk}

/-- Where no text would change, nothing is written. -/
theorem updateFiles_disk_of_unchanged {paths : List Path}
    (unchanged : ∀ path ∈ paths, disk.changes extender path = false) (dryRun : Bool) :
    (updateFiles extender dryRun disk paths).disk = disk := by
  induction paths with
  | nil => rfl
  | cons path rest inductionHypothesis =>
      obtain ⟨unchangedFirst, unchangedRest⟩ := List.forall_mem_cons.mp unchanged
      have first := updateFile_disk_of_unchanged unchangedFirst dryRun
      have others := inductionHypothesis unchangedRest
      rw [updateFiles]
      dsimp only
      split
      · exact first
      · rw [first]
        exact others
      · rw [first]
        exact others

end

/-- Behind an update of some files, they can all be read, and another update changes none. -/
theorem FilesUpdated.settled {extension : String} {before after : Disk}
    {paths updated : List Path}
    (effect : FilesUpdated (.ofExtension extension) before after paths updated)
    (allowed : ∀ char ∈ extension.toList, Rule.importFrom.allows char = true) :
    ∀ path ∈ paths, after.failure? path = none ∧
      after.changes (.ofExtension extension) path = false := by
  intro path membership
  obtain ⟨location, text, led, _, extended⟩ := effect.contents path membership
  have read := Disk.read_eq_ok_iff.mpr
    ⟨location, effect.kinds.locate .target path ▸ led, extended⟩
  refine ⟨Disk.failure?_of_ok read, ?_⟩
  rw [Disk.changes_of_read read, Extender.apply_text_apply allowed]
  simp

section

variable {settings : Settings} {before : Disk} {summary : Summary}

/-- A run that comes to its end and is made again finds the same, updates nothing, and leaves
the disk as it is. -/
theorem run_again (wellFormed : before.WellFormed) (accepted : settings.check = .ok ())
    (oneLine : '\n' ∉ settings.extension.toList) (writing : settings.dryRun = false)
    (finished : (run settings before).result = .ok summary) :
    (run settings (run settings before).disk).result = .ok { summary with updated := [] } ∧
      (run settings (run settings before).disk).disk = (run settings before).disk := by
  obtain ⟨_, _, candidates, skipped⟩ := run_ok finished
  have effect := run_filesUpdated wellFormed writing finished
  have settled := effect.settled (settings.allows_of_check accepted oneLine)
  have wellFormedAfter := effect.kinds.symm.wellFormed wellFormed
  have sameSurvey := effect.kinds.survey_eq wellFormedAfter settings
  constructor
  · have readable : summary.candidates.findSome? (run settings before).disk.failure? = none :=
      List.findSome?_eq_none_iff.mpr fun path membership => (settled path membership).1
    have unchanged : summary.candidates.filter ((run settings before).disk.changes
        (.ofExtension settings.extension)) = [] := by
      apply List.filter_eq_nil_iff.mpr
      intro path membership
      simp [(settled path membership).2]
    rw [run_ok_iff wellFormedAfter, sameSurvey, ← candidates, ← skipped, unchanged]
    exact ⟨readable, rfl⟩
  · rw [run_disk, Settings.updating, sameSurvey, ← candidates]
    apply updateFiles_disk_of_unchanged
    intro path membership
    exact (settled path membership).2

end

theorem run_again_nested :
    nestedDisk.WellFormed ∧ nestedSettings.check = .ok () ∧
      (run nestedSettings nestedDisk).result =
        .ok ⟨[.ofText "packages/index.ts"], [.ofText "packages/index.ts"], []⟩ ∧
      (run nestedSettings (run nestedSettings nestedDisk).disk).result =
        .ok ⟨[.ofText "packages/index.ts"], [], []⟩ ∧
      (run nestedSettings (run nestedSettings nestedDisk).disk).disk =
        (run nestedSettings nestedDisk).disk := by
  have wellFormed : nestedDisk.WellFormed := by decide +kernel
  have finished : (run nestedSettings nestedDisk).result =
      .ok ⟨[.ofText "packages/index.ts"], [.ofText "packages/index.ts"], []⟩ := by
    decide +kernel
  exact ⟨wellFormed, rfl, finished, run_again wellFormed rfl (by decide +kernel) rfl finished⟩

end ImportSuffix
