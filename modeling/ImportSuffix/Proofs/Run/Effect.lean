import ImportSuffix.Proofs.Run.Update
import ImportSuffix.Proofs.Survey.Candidates

/-!
What a successful run leaves behind.

It updates the candidates of the survey that it takes first.  They lead to different
files, so the updates do not meet, and nothing but those files is different in the
end.
-/

namespace ImportSuffix

open Text Specifier

/-- What is different after a run, and what it says about that. -/
structure RunEffect (settings : Settings) (before after : Disk) (summary : Summary) : Prop where
  candidates : summary.candidates = (Survey.take settings before).candidates
  skipped : summary.skipped = (Survey.take settings before).skipped
  updated : summary.updated =
    summary.candidates.filter (before.changes (.ofExtension settings.extension))
  contents : ∀ path ∈ summary.candidates, ∃ location text,
    before.locate .target path = .ok location ∧
    before.content? location = some (encode text) ∧
    after.content? location =
      some (encode ((Extender.ofExtension settings.extension).apply text).text)
  kinds : after.SameKinds before
  changed : ∀ location, after.content? location ≠ before.content? location →
    ∃ path ∈ summary.updated, before.locate .target path = .ok location ∧
      settings.Collects before path location

theorem run_ok {settings : Settings} {before : Disk} {summary : Summary}
    (finished : (run settings before).result = .ok summary) :
    (updateFiles (.ofExtension settings.extension) settings.dryRun before
        (Survey.take settings before).candidates).result = .ok summary.updated ∧
      (run settings before).disk = (updateFiles (.ofExtension settings.extension) settings.dryRun
        before (Survey.take settings before).candidates).disk ∧
      summary.candidates = (Survey.take settings before).candidates ∧
      summary.skipped = (Survey.take settings before).skipped := by
  rw [run_disk]
  rw [run_result] at finished
  cases ended : (settings.updating before).result with
  | error failure =>
      rw [ended] at finished
      cases finished
  | ok updated =>
      rw [ended] at finished
      cases finished
      exact ⟨ended, rfl, rfl, rfl⟩

/-- A file whose content is another one after its update is listed as updated. -/
theorem FilesUpdated.mem_of_content?_ne {extender : Extender} {before after : Disk}
    {paths updated : List Path} (effect : FilesUpdated extender before after paths updated)
    {location : Location} (differs : after.content? location ≠ before.content? location) :
    ∃ path ∈ updated, before.locate .target path = .ok location := by
  by_cases leads : ∃ path ∈ paths, before.locate .target path = .ok location
  · obtain ⟨path, membership, led⟩ := leads
    obtain ⟨there, text, ledThere, held, extended⟩ := effect.contents path membership
    rw [led, Except.ok.injEq] at ledThere
    subst ledThere
    have other : (extender.apply text).text ≠ text := by
      intro same
      apply differs
      rw [extended, held, same]
    have read := Disk.read_eq_ok_iff.mpr ⟨location, led, held⟩
    refine ⟨path, ?_, led⟩
    rw [effect.listed, List.mem_filter, Disk.changes_of_read read]
    exact ⟨membership, decide_eq_true other⟩
  · refine absurd (effect.others location ?_) differs
    intro path membership led
    exact leads ⟨path, membership, led⟩

/-- The exact effect of a run that comes to its end on a disk of any shape. -/
theorem run_effect {settings : Settings} {before : Disk} {summary : Summary}
    (wellFormed : before.WellFormed) (writing : settings.dryRun = false)
    (finished : (run settings before).result = .ok summary) :
    RunEffect settings before (run settings before).disk summary := by
  obtain ⟨updating, disk, candidates, skipped⟩ := run_ok finished
  rw [writing] at updating disk
  have effect := updateFiles_ok (Survey.pairwise_apart_candidates wellFormed) updating
  rw [← disk, ← candidates] at effect
  refine ⟨candidates, skipped, effect.listed, effect.contents, effect.kinds, ?_⟩
  intro location differs
  obtain ⟨path, membership, led⟩ := effect.mem_of_content?_ne differs
  refine ⟨path, membership, led, ?_⟩
  have among : path ∈ (Survey.take settings before).candidates := by
    rw [effect.listed, candidates] at membership
    exact (List.mem_filter.mp membership).1
  exact Survey.collects_of_mem_candidates wellFormed among led

/-- A directory with a file to update, beside a link to itself and a directory with
another file of that name. -/
def nestedDisk : Disk :=
  let content := encode "export * from './part';"
  let inner : Entry := .directory [(encode "index.ts", .file content)]
  let listing : Listing :=
    [(encode "dist", inner), (encode "index.ts", .file content),
      (encode "self", .link (.ofText "/packages"))]
  ⟨.directory [(encode "packages", .directory listing)], []⟩

/-- Settings that leave the inner directory out. -/
def nestedSettings : Settings :=
  { Settings.ofRoot (.ofText "packages/") with excluded := .ofList ["dist"] }

theorem run_effect_nested :
    nestedDisk.WellFormed ∧ nestedSettings.dryRun = false ∧
      (run nestedSettings nestedDisk).result =
        .ok ⟨[.ofText "packages/index.ts"], [.ofText "packages/index.ts"], []⟩ ∧
      RunEffect nestedSettings nestedDisk (run nestedSettings nestedDisk).disk
        ⟨[.ofText "packages/index.ts"], [.ofText "packages/index.ts"], []⟩ := by
  have wellFormed : nestedDisk.WellFormed := by decide +kernel
  have finished : (run nestedSettings nestedDisk).result =
      .ok ⟨[.ofText "packages/index.ts"], [.ofText "packages/index.ts"], []⟩ := by
    decide +kernel
  exact ⟨wellFormed, rfl, finished, run_effect wellFormed rfl finished⟩

end ImportSuffix
