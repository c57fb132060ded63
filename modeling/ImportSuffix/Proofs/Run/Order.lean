import ImportSuffix.Proofs.Disk.Reordered
import ImportSuffix.Proofs.Run.Effect
import ImportSuffix.Proofs.Run.Forecast
import Mathlib.Data.List.Perm.Basic

/-!
Runs on trees that list their entries in another order.

A survey finds the same in both trees, in another order.  Each candidate holds the same text
on both disks, and no update touches the text of another candidate, so in the end all files
have the same contents, unless one of the candidates cannot be read.
-/

namespace ImportSuffix

open Text Specifier

theorem Listing.Reordered.findings_perm {first second : Listing} {path : Path}
    (reordered : Listing.Reordered first second) (excluded : ExcludedNames) (targetName : Bytes) :
    (Listing.findings excluded targetName path first).Perm
      (Listing.findings excluded targetName path second) := by
  induction reordered generalizing path with
  | nil => exact .nil
  | cons _ inductionHypothesis => exact inductionHypothesis.append_left _
  | @inside name inner other rest _ inductionHypothesis =>
      have perm : (Listing.findings excluded targetName path [(name, .directory inner)]).Perm
          (Listing.findings excluded targetName path [(name, .directory other)]) := by
        rw [Listing.findings_directory, Listing.findings_directory]
        split
        · exact .refl _
        · split
          · exact .refl _
          · exact inductionHypothesis
      simpa only [Listing.findings, List.append_nil] using
        perm.append_right (Listing.findings excluded targetName path rest)
  | swap =>
      simp only [Listing.findings, ← List.append_assoc]
      exact List.perm_append_comm.append_right _
  | trans _ _ front back => exact front.trans back

/-- Two lists that hold the same, each thing once, in whatever order. -/
structure Rearranged {Value : Type} (first second : List Value) : Prop where
  perm : first.Perm second
  once : first.Nodup
  onceToo : second.Nodup

theorem Rearranged.of_perm {Value : Type} {first second : List Value}
    (perm : first.Perm second) (once : first.Nodup) : Rearranged first second :=
  ⟨perm, once, perm.nodup_iff.mp once⟩

namespace Disk.Reordered

variable {first second : Disk} (reordered : first.Reordered second)
  (wellFormed : first.WellFormed)
include reordered wellFormed

theorem findings_perm (root : Path) (excluded : ExcludedNames) (targetName : String) :
    (first.findings root excluded targetName).Perm (second.findings root excluded targetName) := by
  have same := reordered.ways wellFormed
  rw [Disk.findings_eq, Disk.findings_eq, same.rootFindings_eq]
  apply List.Perm.append_left
  rcases same.listing?_cases root with
    ⟨nowhere, nowhereToo⟩ | ⟨location, one, other, leads, leadsToo, found, foundToo⟩
  · rw [nowhere, nowhereToo]
  · obtain ⟨entry, there, related⟩ := reordered.root.exists_at? wellFormed found
    rw [← Disk.entry?, foundToo, Option.some.injEq] at there
    subst there
    simp only [leads, leadsToo]
    cases related with
    | same => exact .refl _
    | directory within => exact within.findings_perm excluded (encode targetName)

/-- A survey collects and skips the same. -/
theorem survey (settings : Settings) :
    Rearranged (Survey.take settings first).candidates (Survey.take settings second).candidates ∧
      Rearranged (Survey.take settings first).skipped (Survey.take settings second).skipped := by
  have perm := reordered.findings_perm wellFormed settings.root settings.excluded
    settings.targetName
  exact ⟨.of_perm (perm.filterMap _) (Survey.nodup_candidates wellFormed),
    .of_perm (perm.filterMap _) (Survey.nodup_skipped wellFormed)⟩

theorem read_eq (path : Path) : first.read path = second.read path :=
  Disk.read_congr (reordered.ways wellFormed) fun location _ =>
    reordered.content?_eq wellFormed location

theorem findSome?_failure?_eq_none_iff {paths others : List Path} (perm : paths.Perm others) :
    paths.findSome? first.failure? = none ↔ others.findSome? second.failure? = none := by
  simp only [List.findSome?_eq_none_iff, perm.mem_iff,
    Disk.failure?_congr (reordered.read_eq wellFormed _)]

theorem filter_changes_perm {paths others : List Path} (perm : paths.Perm others)
    (extender : Extender) :
    (paths.filter (first.changes extender)).Perm (others.filter (second.changes extender)) := by
  have same : ∀ path ∈ paths, first.changes extender path = second.changes extender path :=
    fun path _ => Disk.changes_congr (reordered.read_eq wellFormed path) extender
  rw [List.filter_congr same]
  exact perm.filter _

/-- Updates that all succeed leave the same contents. -/
theorem content?_updated_eq {extender : Extender} {dryRun : Bool} {paths others : List Path}
    {activity activityToo : Activity (List Path)}
    (told : Foretold extender dryRun first paths activity)
    (toldToo : Foretold extender dryRun second others activityToo) (perm : paths.Perm others)
    (readable : paths.findSome? first.failure? = none) (location : Location) :
    activity.disk.content? location = activityToo.disk.content? location := by
  have contents := told.contents
  have contentsToo := toldToo.contents
  have kept := told.others
  have keptToo := toldToo.others
  have readableToo :=
    (reordered.findSome?_failure?_eq_none_iff wellFormed perm).mp readable
  rw [Disk.legible_of_no_failure readable] at contents kept
  rw [Disk.legible_of_no_failure readableToo] at contentsToo keptToo
  have sameContent := reordered.content?_eq wellFormed location
  have sameLocation := (reordered.ways wellFormed).locate .target
  -- Either one path leads there on both disks, or none does on either.
  by_cases leads : ∃ path ∈ paths, first.locate .target path = .ok location
  · obtain ⟨path, membership, led⟩ := leads
    obtain ⟨there, text, ledThere, held, extended⟩ := contents path membership
    obtain ⟨thereToo, textToo, ledThereToo, heldToo, extendedToo⟩ :=
      contentsToo path (perm.mem_iff.mp membership)
    rw [led, Except.ok.injEq] at ledThere
    rw [← sameLocation, led, Except.ok.injEq] at ledThereToo
    subst ledThere ledThereToo
    rw [held, heldToo, Option.some.injEq, encode_inj] at sameContent
    rw [extended, extendedToo, sameContent]
  · have away : ∀ path ∈ paths, first.locate .target path ≠ .ok location := by
      intro path membership led
      exact leads ⟨path, membership, led⟩
    have awayToo : ∀ path ∈ others, second.locate .target path ≠ .ok location := by
      intro path membership
      rw [← sameLocation]
      exact away path (perm.mem_iff.mpr membership)
    rw [kept location away, keptToo location awayToo, sameContent]

end Disk.Reordered

/-- What a survey and a run make of two disks, where the order of listings does not matter. -/
structure OrderIrrelevant (settings : Settings) (first second : Disk) : Prop where
  candidates : Rearranged (Survey.take settings first).candidates
    (Survey.take settings second).candidates
  skipped : Rearranged (Survey.take settings first).skipped (Survey.take settings second).skipped
  finish : (∃ summary, (run settings first).result = .ok summary) ↔
    ∃ summary, (run settings second).result = .ok summary
  summaries : ∀ one other, (run settings first).result = .ok one →
    (run settings second).result = .ok other →
    Rearranged one.candidates other.candidates ∧ Rearranged one.updated other.updated ∧
      Rearranged one.skipped other.skipped
  contents : ∀ one other, (run settings first).result = .ok one →
    (run settings second).result = .ok other → ∀ location,
    (run settings first).disk.content? location = (run settings second).disk.content? location

/-- The order in which directories list their entries matters neither to a survey nor to a run. -/
theorem run_reordered {first second : Disk} (wellFormed : first.WellFormed)
    (reordered : first.Reordered second) (settings : Settings) :
    OrderIrrelevant settings first second := by
  have wellFormedToo := reordered.wellFormed wellFormed
  obtain ⟨candidates, skipped⟩ := reordered.survey wellFormed settings
  have sameEnd := reordered.findSome?_failure?_eq_none_iff wellFormed candidates.perm
  refine ⟨candidates, skipped, ?_, ?_, ?_⟩
  · simp only [run_ok_iff wellFormed, run_ok_iff wellFormedToo, exists_and_left, exists_eq,
      and_true, sameEnd]
  · intro one other finished finishedToo
    obtain ⟨_, rfl⟩ := (run_ok_iff wellFormed).mp finished
    obtain ⟨_, rfl⟩ := (run_ok_iff wellFormedToo).mp finishedToo
    refine ⟨candidates, ?_, skipped⟩
    exact .of_perm (reordered.filter_changes_perm wellFormed candidates.perm _)
      (candidates.once.filter _)
  · intro one other finished _ location
    rw [run_disk, run_disk]
    exact reordered.content?_updated_eq wellFormed (settings.updating_foretold wellFormed)
      (settings.updating_foretold wellFormedToo) candidates.perm
      ((run_ok_iff wellFormed).mp finished).1 location

/-- Files in directories at different depths, each directory listed in a given order. -/
def arrangedDisk (arrange : Listing → Listing) : Disk :=
  let file : Bytes × Entry := (encode "index.ts", .file (encode "export * from './part';"))
  let inner : Listing := [file, (encode "deep", .directory [file])]
  let outer : Listing :=
    [(encode "a", .directory (arrange inner)), (encode "b", .directory [file]), file]
  ⟨.directory [(encode "packages", .directory (arrange outer))], []⟩

theorem run_reordered_arranged :
    (arrangedDisk id).WellFormed ∧ (arrangedDisk id).Reordered (arrangedDisk List.reverse) ∧
      (Survey.take (.ofRoot (.ofText "packages")) (arrangedDisk id)).candidates =
        [.ofText "packages/a/index.ts", .ofText "packages/a/deep/index.ts",
          .ofText "packages/b/index.ts", .ofText "packages/index.ts"] ∧
      (Survey.take (.ofRoot (.ofText "packages")) (arrangedDisk List.reverse)).candidates =
        [.ofText "packages/index.ts", .ofText "packages/b/index.ts",
          .ofText "packages/a/deep/index.ts", .ofText "packages/a/index.ts"] ∧
      OrderIrrelevant (.ofRoot (.ofText "packages")) (arrangedDisk id)
        (arrangedDisk List.reverse) := by
  have wellFormed : (arrangedDisk id).WellFormed := by decide +kernel
  have reordered : (arrangedDisk id).Reordered (arrangedDisk List.reverse) := by
    refine ⟨rfl, .directory (.inside ?_)⟩
    exact .trans (.inside (.of_perm (List.reverse_perm _).symm))
      (.of_perm (List.reverse_perm _).symm)
  exact ⟨wellFormed, reordered, by decide +kernel, by decide +kernel,
    run_reordered wellFormed reordered _⟩

end ImportSuffix
