import ImportSuffix.Proofs.Run.Effect
import ImportSuffix.Proofs.Run.Forecast
import Mathlib.Data.List.Forall2

/-!
Dry runs.

A dry run leaves the disk alone and ends as the run does that writes.  It lists exactly
the files that the other one changes.
-/

namespace ImportSuffix

open Text Specifier

/-- One message in the report of a dry run, and the one in its place where files are
written. -/
inductive Message.Foretells : Message → Message → Prop where
  | same {message} :
      (∀ path, message ≠ .updated path) → (∀ path, message ≠ .wouldUpdate path) →
      Foretells message message
  | update {path} : Foretells (.wouldUpdate path) (.updated path)

theorem forall₂_foretells_openingReport (settings : Settings) (survey : Survey) :
    List.Forall₂ Message.Foretells (openingReport settings survey)
      (openingReport settings survey) := by
  apply List.forall₂_same.mpr
  intro message membership
  apply Message.Foretells.same <;> rintro path rfl <;>
    cases isOpening_of_mem_openingReport membership

theorem forall₂_foretells_closingReport (settings : Settings)
    (result : Except Failure Summary) :
    List.Forall₂ Message.Foretells (closingReport settings result)
      (closingReport settings result) := by
  cases result with
  | error failure => exact .nil
  | ok summary => exact .cons (.same (by simp) (by simp)) .nil

theorem forall₂_foretells_announcement (paths : List Path) :
    List.Forall₂ Message.Foretells (paths.map (announcement true))
      (paths.map (announcement false)) := by
  rw [List.forall₂_map_left_iff, List.forall₂_map_right_iff]
  apply List.forall₂_same.mpr
  intro path _
  exact .update

namespace FilesUpdated

variable {extender : Extender} {before after : Disk} {paths updated : List Path}

/-- Exactly the files that are listed get another content. -/
theorem content?_ne_iff (effect : FilesUpdated extender before after paths updated)
    {location : Location} :
    after.content? location ≠ before.content? location ↔
      ∃ path ∈ updated, before.locate .target path = .ok location := by
  refine ⟨effect.mem_of_content?_ne, ?_⟩
  rintro ⟨path, membership, led⟩ same
  rw [effect.listed, List.mem_filter] at membership
  obtain ⟨among, changes⟩ := membership
  obtain ⟨there, text, ledThere, held, extended⟩ := effect.contents path among
  rw [led, Except.ok.injEq] at ledThere
  subst ledThere
  rw [Disk.changes_of_read (Disk.read_eq_ok_iff.mpr ⟨location, led, held⟩)] at changes
  rw [extended, held, Option.some.injEq, encode_inj] at same
  exact of_decide_eq_true changes same

theorem listed_eq_filter_read (effect : FilesUpdated extender before after paths updated) :
    updated = paths.filter fun path => decide (after.read path ≠ before.read path) := by
  rw [effect.listed]
  apply List.filter_congr
  intro path membership
  obtain ⟨location, text, led, held, extended⟩ := effect.contents path membership
  have readBefore := Disk.read_eq_ok_iff.mpr ⟨location, led, held⟩
  have readAfter := Disk.read_eq_ok_iff.mpr
    ⟨location, effect.kinds.locate .target path ▸ led, extended⟩
  rw [Disk.changes_of_read readBefore, readBefore, readAfter]
  simp

end FilesUpdated

/-- What a dry run says about the run that writes, from the same disk. -/
structure DryRunForetells (disk : Disk) (dry real : Activity Summary) : Prop where
  untouched : dry.disk = disk
  result : dry.result = real.result
  report : List.Forall₂ Message.Foretells dry.report real.report
  updated : ∀ summary, dry.result = .ok summary → summary.updated =
    summary.candidates.filter fun path => decide (real.disk.read path ≠ disk.read path)
  changed : ∀ summary, dry.result = .ok summary → ∀ location,
    real.disk.content? location ≠ disk.content? location ↔
      ∃ path ∈ summary.updated, disk.locate .target path = .ok location

/-- A run that writes and comes to its end updates its candidates. -/
theorem run_filesUpdated {settings : Settings} {disk : Disk} {summary : Summary}
    (wellFormed : disk.WellFormed) (writing : settings.dryRun = false)
    (finished : (run settings disk).result = .ok summary) :
    FilesUpdated (.ofExtension settings.extension) disk (run settings disk).disk
      summary.candidates summary.updated := by
  obtain ⟨updating, after, candidates, _⟩ := run_ok finished
  rw [writing] at updating after
  rw [after, candidates]
  exact updateFiles_ok (Survey.pairwise_apart_candidates wellFormed) updating

/-- A dry run foretells the run with the same settings that writes. -/
theorem dryRun_foretells_run {disk : Disk} (wellFormed : disk.WellFormed) (settings : Settings) :
    DryRunForetells disk (run { settings with dryRun := true } disk)
      (run { settings with dryRun := false } disk) := by
  have result : (run { settings with dryRun := true } disk).result =
      (run { settings with dryRun := false } disk).result := by
    rw [run_result_foretold wellFormed, run_result_foretold wellFormed]
    rfl
  refine ⟨?_, result, ?_, ?_, ?_⟩
  · rw [run_disk]
    exact (Settings.updating_foretold wellFormed _).dry rfl
  · rw [report_run_foretold wellFormed, report_run_foretold wellFormed, result]
    apply List.rel_append
    · apply List.rel_append
      · exact forall₂_foretells_openingReport _ _
      · exact forall₂_foretells_announcement _
    · exact forall₂_foretells_closingReport _ _
  · intro summary finished
    rw [result] at finished
    exact (run_filesUpdated wellFormed rfl finished).listed_eq_filter_read
  · intro summary finished location
    rw [result] at finished
    exact (run_filesUpdated wellFormed rfl finished).content?_ne_iff

theorem dryRun_foretells_run_nested :
    nestedDisk.WellFormed ∧
      (run { nestedSettings with dryRun := true } nestedDisk).result =
        .ok ⟨[.ofText "packages/index.ts"], [.ofText "packages/index.ts"], []⟩ ∧
      DryRunForetells nestedDisk (run { nestedSettings with dryRun := true } nestedDisk)
        (run { nestedSettings with dryRun := false } nestedDisk) := by
  have wellFormed : nestedDisk.WellFormed := by decide +kernel
  have finished : (run { nestedSettings with dryRun := true } nestedDisk).result =
      .ok ⟨[.ofText "packages/index.ts"], [.ofText "packages/index.ts"], []⟩ := by
    decide +kernel
  exact ⟨wellFormed, finished, dryRun_foretells_run wellFormed nestedSettings⟩

end ImportSuffix
