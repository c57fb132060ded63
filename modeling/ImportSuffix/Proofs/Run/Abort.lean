import ImportSuffix.Proofs.Run.Forecast
import ImportSuffix.Proofs.Survey.Coverage

/-!
Runs that come to an early end.

A run fails if and only if one of its candidates holds no text.  What was done before
the first such file stays done, and nothing else is.
-/

namespace ImportSuffix

open Text Specifier

namespace Disk

/-- The path leads to a file whose content is no text. -/
def HoldsNoText (disk : Disk) (path : Path) : Prop :=
  ∃ location content, disk.locate .target path = .ok location ∧
    disk.content? location = some content ∧ decode? content = none

theorem HoldsNoText.read_eq {disk : Disk} {path : Path} (noText : disk.HoldsNoText path) :
    disk.read path = .error .invalidText := by
  obtain ⟨location, content, led, held, undecodable⟩ := noText
  rw [Disk.read_eq, led]
  simp only [held, undecodable]

/-- Nothing else keeps a file from being read to which its path leads. -/
theorem holdsNoText_of_failure? {disk : Disk} {path : Path} {location : Location}
    {content : Bytes} {failure : Failure} (led : disk.locate .target path = .ok location)
    (held : disk.content? location = some content)
    (failed : disk.failure? path = some failure) : disk.HoldsNoText path := by
  refine ⟨location, content, led, held, ?_⟩
  cases decoded : decode? content with
  | none => rfl
  | some text =>
      have read := read_eq_ok_iff.mpr ⟨location, led, decode?_eq_some_iff.mp decoded ▸ held⟩
      rw [failure?_of_ok read] at failed
      cases failed

theorem failure?_of_holdsNoText {disk : Disk} {path : Path} (noText : disk.HoldsNoText path) :
    disk.failure? path = some (.read path .invalidText) :=
  failure?_of_error noText.read_eq

/-- The first failure stands behind the files that can be read. -/
theorem exists_of_findSome?_failure? {disk : Disk} {paths : List Path} {failure : Failure}
    (failed : paths.findSome? disk.failure? = some failure) :
    ∃ path rest, paths = disk.legible paths ++ path :: rest ∧
      disk.failure? path = some failure ∧
      ∀ earlier ∈ disk.legible paths, disk.failure? earlier = none := by
  obtain ⟨done, path, rest, rfl, here, before⟩ := List.findSome?_eq_some_iff.mp failed
  have legible : disk.legible (done ++ path :: rest) = done := by
    rw [legible, List.takeWhile_append_of_pos, List.takeWhile_cons_of_neg (by simp [here]),
      List.append_nil]
    intro earlier membership
    rw [before earlier membership]
    rfl
  rw [legible]
  exact ⟨path, rest, rfl, here, before⟩

end Disk

/-- What a run leaves behind that ends at a path.  The candidates before it are done, up to
writing in a dry run, and announced where they change. -/
structure RunAborted (settings : Settings) (before : Disk) (activity : Activity Summary)
    (done : List Path) (path : Path) (rest : List Path) : Prop where
  candidates : (Survey.take settings before).candidates = done ++ path :: rest
  texts : ∀ earlier ∈ done, ¬before.HoldsNoText earlier
  noText : before.HoldsNoText path
  result : activity.result = .error (.read path .invalidText)
  kinds : activity.disk.SameKinds before
  contents : ∀ earlier ∈ done, ∃ location text,
    before.locate .target earlier = .ok location ∧
    before.content? location = some (encode text) ∧
    activity.disk.content? location = some (encode
      (if settings.dryRun then text
      else ((Extender.ofExtension settings.extension).apply text).text))
  unreached : ∀ later ∈ path :: rest, ∀ location, before.locate .target later = .ok location →
    activity.disk.content? location = before.content? location
  others : ∀ location,
    (∀ candidate ∈ (Survey.take settings before).candidates,
      before.locate .target candidate ≠ .ok location) →
    activity.disk.content? location = before.content? location
  report : activity.report =
    openingReport settings (Survey.take settings before) ++
      (done.filter (before.changes (.ofExtension settings.extension))).map fun path =>
        if settings.dryRun then .wouldUpdate path else .updated path
  unfinished : ∀ targetName, Message.done targetName ∉ activity.messages

section

variable {settings : Settings} {before : Disk}

/-- A run that fails has met a candidate without text, behind others that it has read. -/
theorem exists_noText_of_failed (wellFormed : before.WellFormed)
    (short : ∀ path ∈ (Survey.take settings before).candidates,
      path.bytes.length < Disk.pathLimit) {failure : Failure}
    (failed : (run settings before).result = .error failure) :
    ∃ path rest, (Survey.take settings before).candidates =
        before.legible (Survey.take settings before).candidates ++ path :: rest ∧
      before.HoldsNoText path ∧ failure = .read path .invalidText ∧
      ∀ earlier ∈ before.legible (Survey.take settings before).candidates,
        ¬before.HoldsNoText earlier := by
  obtain ⟨path, rest, split, here, readable⟩ :=
    Disk.exists_of_findSome?_failure? ((run_error_iff wellFormed).mp failed)
  have membership : path ∈ (Survey.take settings before).candidates := by
    rw [split]
    simp
  obtain ⟨location, content, led, held⟩ :=
    Survey.exists_content_of_mem_candidates wellFormed membership (short path membership)
  have noText := Disk.holdsNoText_of_failure? led held here
  rw [Disk.failure?_of_holdsNoText noText, Option.some.injEq] at here
  refine ⟨path, rest, split, noText, here.symm, ?_⟩
  intro earlier among earlierNoText
  have unread := Disk.failure?_of_holdsNoText earlierNoText
  rw [readable earlier among] at unread
  cases unread

theorem exists_runAborted_of_failed (wellFormed : before.WellFormed)
    (short : ∀ path ∈ (Survey.take settings before).candidates,
      path.bytes.length < Disk.pathLimit) {failure : Failure}
    (failed : (run settings before).result = .error failure) :
    ∃ done path rest, RunAborted settings before (run settings before) done path rest := by
  obtain ⟨path, rest, split, noText, rfl, texts⟩ :=
    exists_noText_of_failed wellFormed short failed
  have told := settings.updating_foretold wellFormed
  have disk := run_disk settings before
  have report := report_run_foretold wellFormed settings
  rw [failed, closingReport, List.append_nil] at report
  have apart : ((Survey.take settings before).candidates).Pairwise before.Apart :=
    Survey.pairwise_apart_candidates wellFormed
  rw [split, List.pairwise_append] at apart
  refine ⟨_, path, rest, split, texts, noText, failed, disk ▸ told.kinds, ?_, ?_, ?_, report,
    done_not_mem_messages_of_failed failed⟩
  · intro earlier among
    rw [disk]
    exact told.contents earlier among
  · intro later among location led
    rw [disk]
    apply told.others
    intro earlier membership ledEarlier
    exact apart.2.2 earlier membership later among location ledEarlier led
  · intro location away
    rw [disk]
    apply told.others
    intro earlier among
    exact away earlier (Disk.mem_of_mem_legible among)

/-- A run fails if and only if a candidate holds no text.  It ends at the first one. -/
theorem run_aborts (wellFormed : before.WellFormed)
    (short : ∀ path ∈ (Survey.take settings before).candidates,
      path.bytes.length < Disk.pathLimit) :
    ((∃ failure, (run settings before).result = .error failure) ↔
      ∃ path ∈ (Survey.take settings before).candidates, before.HoldsNoText path) ∧
    ∀ failure, (run settings before).result = .error failure →
      ∃ done path rest, RunAborted settings before (run settings before) done path rest := by
  refine ⟨⟨?_, ?_⟩, fun failure failed => exists_runAborted_of_failed wellFormed short failed⟩
  · rintro ⟨failure, failed⟩
    obtain ⟨path, rest, split, noText, _⟩ := exists_noText_of_failed wellFormed short failed
    refine ⟨path, ?_, noText⟩
    rw [split]
    simp
  · rintro ⟨path, membership, noText⟩
    cases first : (Survey.take settings before).candidates.findSome? before.failure? with
    | some failure => exact ⟨failure, (run_error_iff wellFormed).mpr first⟩
    | none =>
        have readable := List.findSome?_eq_none_iff.mp first path membership
        rw [Disk.failure?_of_holdsNoText noText] at readable
        cases readable

end

/-- Three files with the right name.  The second one is no text. -/
def damagedDisk : Disk :=
  let content := encode "export * from './part';"
  let holding (bytes : Bytes) : Entry := .directory [(encode "index.ts", .file bytes)]
  let listing : Listing :=
    [(encode "a", holding content), (encode "b", holding [0xFF, 0xFE]),
      (encode "c", holding content)]
  ⟨.directory [(encode "packages", .directory listing)], []⟩

theorem run_aborts_damaged :
    damagedDisk.WellFormed ∧
      (∀ path ∈ (Survey.take (.ofRoot (.ofText "packages")) damagedDisk).candidates,
        path.bytes.length < Disk.pathLimit) ∧
      (∃ path ∈ (Survey.take (.ofRoot (.ofText "packages")) damagedDisk).candidates,
        damagedDisk.HoldsNoText path) ∧
      (run (.ofRoot (.ofText "packages")) damagedDisk).result =
        .error (.read (.ofText "packages/b/index.ts") .invalidText) ∧
      ∃ done path rest, RunAborted (.ofRoot (.ofText "packages")) damagedDisk
        (run (.ofRoot (.ofText "packages")) damagedDisk) done path rest := by
  have wellFormed : damagedDisk.WellFormed := by decide +kernel
  have short : ∀ path ∈ (Survey.take (.ofRoot (.ofText "packages")) damagedDisk).candidates,
      path.bytes.length < Disk.pathLimit := by decide +kernel
  have failed : (run (.ofRoot (.ofText "packages")) damagedDisk).result =
      .error (.read (.ofText "packages/b/index.ts") .invalidText) := by decide +kernel
  obtain ⟨fails, aborted⟩ := run_aborts wellFormed short
  exact ⟨wellFormed, short, fails.mp ⟨_, failed⟩, failed, aborted _ failed⟩

end ImportSuffix
