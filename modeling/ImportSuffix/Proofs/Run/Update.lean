import ImportSuffix.Proofs.Disk.Leads
import ImportSuffix.Proofs.Run.Report
import Mathlib.Data.List.TakeWhile

/-!
Updating files one after the other.

A file that is updated gets another content, and nothing else on the disk changes.
So paths that lead to different files can be updated in any state that earlier
updates leave: each is read as it was before the first of them.  What comes of all
updates, up to the first failure, can therefore be told from the disk before them.
-/

namespace ImportSuffix

open Text Specifier

namespace Disk

/-- Whether the text of a file can be read and changes when it is extended. -/
def changes (disk : Disk) (extender : Extender) (path : Path) : Bool :=
  match disk.read path with
  | .ok text => decide ((extender.apply text).text ≠ text)
  | .error _ => false

theorem changes_of_read {disk : Disk} {extender : Extender} {path : Path} {text : String}
    (held : disk.read path = .ok text) :
    disk.changes extender path = decide ((extender.apply text).text ≠ text) := by
  rw [changes, held]

/-- How an update fails that cannot read its file. -/
def failure? (disk : Disk) (path : Path) : Option Failure :=
  match disk.read path with
  | .ok _ => none
  | .error cause => some (.read path cause)

theorem failure?_of_ok {disk : Disk} {path : Path} {text : String}
    (held : disk.read path = .ok text) : disk.failure? path = none := by
  rw [failure?, held]

theorem failure?_of_error {disk : Disk} {path : Path} {cause : Cause}
    (unread : disk.read path = .error cause) :
    disk.failure? path = some (.read path cause) := by
  rw [failure?, unread]

/-- The files before the first one that cannot be read. -/
def legible (disk : Disk) (paths : List Path) : List Path :=
  paths.takeWhile fun path => (disk.failure? path).isNone

theorem legible_cons_of_ok {disk : Disk} {path : Path} {text : String}
    (held : disk.read path = .ok text) (rest : List Path) :
    disk.legible (path :: rest) = path :: disk.legible rest := by
  rw [legible, List.takeWhile_cons_of_pos (by simp [failure?_of_ok held])]
  rfl

theorem legible_cons_of_error {disk : Disk} {path : Path} {cause : Cause}
    (unread : disk.read path = .error cause) (rest : List Path) :
    disk.legible (path :: rest) = [] := by
  rw [legible, List.takeWhile_cons_of_neg (by simp [failure?_of_error unread])]

theorem legible_of_no_failure {disk : Disk} {paths : List Path}
    (none : paths.findSome? disk.failure? = none) : disk.legible paths = paths := by
  have readable := List.findSome?_eq_none_iff.mp none
  apply List.takeWhile_eq_self_iff.mpr
  intro path membership
  rw [readable path membership]
  rfl

theorem mem_of_mem_legible {disk : Disk} {paths : List Path} {path : Path}
    (membership : path ∈ disk.legible paths) : path ∈ paths :=
  List.takeWhile_subset _ membership

theorem changes_congr {first second : Disk} {path : Path}
    (same : first.read path = second.read path) (extender : Extender) :
    first.changes extender path = second.changes extender path := by
  rw [changes, changes, same]

theorem failure?_congr {first second : Disk} {path : Path}
    (same : first.read path = second.read path) : first.failure? path = second.failure? path := by
  rw [failure?, failure?, same]

theorem findSome?_failure?_congr {first second : Disk} {paths : List Path}
    (same : ∀ path ∈ paths, first.read path = second.read path) :
    paths.findSome? first.failure? = paths.findSome? second.failure? := by
  induction paths with
  | nil => rfl
  | cons path rest inductionHypothesis =>
      obtain ⟨sameFirst, sameRest⟩ := List.forall_mem_cons.mp same
      rw [List.findSome?_cons, List.findSome?_cons, failure?_congr sameFirst,
        inductionHypothesis sameRest]

theorem legible_congr {first second : Disk} {paths : List Path}
    (same : ∀ path ∈ paths, first.read path = second.read path) :
    first.legible paths = second.legible paths := by
  unfold legible
  induction paths with
  | nil => rfl
  | cons path rest inductionHypothesis =>
      obtain ⟨sameFirst, sameRest⟩ := List.forall_mem_cons.mp same
      rw [List.takeWhile_cons, List.takeWhile_cons, failure?_congr sameFirst,
        inductionHypothesis sameRest]

end Disk

/-- The text that an update leaves in a file. -/
def textAfter (extender : Extender) (dryRun : Bool) (text : String) : String :=
  if dryRun then text else (extender.apply text).text

/-- What comes of updating one file, which holds some text. -/
structure FileForetold (extender : Extender) (dryRun : Bool) (before : Disk) (path : Path)
    (location : Location) (text : String) (activity : Activity Outcome) : Prop where
  result : activity.result = .ok (if before.changes extender path then .updated else .unchanged)
  report : activity.report = []
  kinds : activity.disk.SameKinds before
  contents : ∀ other, activity.disk.content? other =
    if other = location then some (encode (textAfter extender dryRun text))
    else before.content? other
  dry : dryRun = true → activity.disk = before

theorem updateFile_foretold (extender : Extender) (dryRun : Bool) {before : Disk} {path : Path}
    {location : Location} {text : String} (led : before.locate .target path = .ok location)
    (content : before.content? location = some (encode text)) :
    FileForetold extender dryRun before path location text
      (updateFile extender dryRun before path) := by
  have held := Disk.read_eq_ok_iff.mpr ⟨location, led, content⟩
  have kept : ∀ other, before.content? other =
      if other = location then some (encode text) else before.content? other := by
    intro other
    split
    next here => rw [here, content]
    next => rfl
  have report := report_updateFile extender dryRun before path
  have changes : before.changes extender path = decide ((extender.apply text).text ≠ text) :=
    Disk.changes_of_read held
  rw [updateFile, readText_eq_ok_iff.mpr held] at report ⊢
  by_cases same : (extender.apply text).text = text
  · simp only [if_pos same] at report ⊢
    refine ⟨by simp [changes, same], report, Disk.SameKinds.refl before, ?_, fun _ => rfl⟩
    simpa [textAfter, same] using kept
  · cases dryRun with
    | true =>
        simp only [if_neg same, if_true] at report ⊢
        refine ⟨by simp [changes, same], report, Disk.SameKinds.refl before, ?_, fun _ => rfl⟩
        simpa [textAfter] using kept
    | false =>
        have written :=
          writeText_of_write (Disk.write_of_read led content (extender.apply text).text)
        simp only [if_neg same, Bool.false_eq_true, if_false, written] at report ⊢
        refine ⟨?_, report, Disk.insert_sameKinds content _, ?_, by simp⟩
        · simp [changes, same, Except.map]
        · exact Disk.content?_insert content _

theorem updateFile_disk_of_unchanged {extender : Extender} {disk : Disk} {path : Path}
    (unchanged : disk.changes extender path = false) (dryRun : Bool) :
    (updateFile extender dryRun disk path).disk = disk := by
  unfold updateFile
  cases held : readText disk path with
  | error failure => rfl
  | ok text =>
      rw [Disk.changes_of_read (readText_eq_ok_iff.mp held), decide_eq_false_iff_not, not_not] at unchanged
      simp only [if_pos unchanged]

/-- A file is updated, then the others on the disk that it leaves. -/
theorem updateFiles_cons_of_ok {extender : Extender} {dryRun changes : Bool} {before : Disk}
    {path : Path} {others : Activity (List Path)} (rest : List Path)
    (first : (updateFile extender dryRun before path).result =
      .ok (if changes then .updated else .unchanged))
    (later : updateFiles extender dryRun (updateFile extender dryRun before path).disk rest =
      others) :
    (updateFiles extender dryRun before (path :: rest)).disk = others.disk ∧
      (updateFiles extender dryRun before (path :: rest)).report =
        (updateFile extender dryRun before path).report ++
          ((if changes then [announcement dryRun path] else []) ++ others.report) ∧
      (updateFiles extender dryRun before (path :: rest)).result =
        others.result.map fun updated => if changes then path :: updated else updated := by
  have announced : (announcement dryRun path).isReport = true := by cases dryRun <;> rfl
  rw [updateFiles]
  cases changes with
  | false =>
      simp only [first, later, true_and, Bool.false_eq_true, if_false]
      refine ⟨by simp [Activity.report], ?_⟩
      cases others.result <;> rfl
  | true =>
      simp only [first, later, true_and, if_true]
      exact ⟨by simp [Activity.report, announced], trivial⟩

/-- What comes of updating some files, told from the disk before the first of them.  The
first file that cannot be read ends it. -/
structure Foretold (extender : Extender) (dryRun : Bool) (before : Disk) (paths : List Path)
    (activity : Activity (List Path)) : Prop where
  result : activity.result =
    match paths.findSome? before.failure? with
    | none => .ok (paths.filter (before.changes extender))
    | some failure => .error failure
  report : activity.report =
    ((before.legible paths).filter (before.changes extender)).map (announcement dryRun)
  kinds : activity.disk.SameKinds before
  contents : ∀ path ∈ before.legible paths, ∃ location text,
    before.locate .target path = .ok location ∧ before.content? location = some (encode text) ∧
    activity.disk.content? location = some (encode (textAfter extender dryRun text))
  others : ∀ location,
    (∀ path ∈ before.legible paths, before.locate .target path ≠ .ok location) →
    activity.disk.content? location = before.content? location
  dry : dryRun = true → activity.disk = before

theorem Foretold.cons_of_error {extender : Extender} {before : Disk} {path : Path} {cause : Cause}
    (unread : before.read path = .error cause) (dryRun : Bool) (rest : List Path) :
    Foretold extender dryRun before (path :: rest)
      (updateFiles extender dryRun before (path :: rest)) := by
  have legible := Disk.legible_cons_of_error unread rest
  have failed : updateFiles extender dryRun before (path :: rest) =
      ⟨[], before, .error (.read path cause)⟩ := by
    simp only [updateFiles, updateFile, readText_of_error unread]
  rw [failed]
  refine ⟨?_, ?_, Disk.SameKinds.refl before, ?_, fun _ _ => rfl, fun _ => rfl⟩
  · rw [List.findSome?_cons, Disk.failure?_of_error unread]
  · rw [legible]
    rfl
  · simp [legible]

section

variable {extender : Extender} {dryRun : Bool} {before : Disk} {path : Path} {rest : List Path}
  {location : Location} {text : String} {first : Activity Outcome}
  {others whole : Activity (List Path)}

theorem FileForetold.content?_of_leads
    (step : FileForetold extender dryRun before path location text first) {other : Path}
    (elsewhere : before.locate .target other ≠ .ok location) {there : Location}
    (ledThere : before.locate .target other = .ok there) :
    first.disk.content? there = before.content? there := by
  have differs : there ≠ location := fun same => elsewhere (same ▸ ledThere)
  rw [step.contents, if_neg differs]

/-- The update of one file changes nothing about reading another one. -/
theorem FileForetold.read_eq
    (step : FileForetold extender dryRun before path location text first) {other : Path}
    (elsewhere : before.locate .target other ≠ .ok location) :
    first.disk.read other = before.read other := by
  apply Disk.read_congr step.kinds.ways
  intro there ledThere
  exact step.content?_of_leads elsewhere ledThere

theorem FileForetold.changes_eq
    (step : FileForetold extender dryRun before path location text first) {other : Path}
    (elsewhere : before.locate .target other ≠ .ok location) (extender : Extender) :
    first.disk.changes extender other = before.changes extender other :=
  Disk.changes_congr (step.read_eq elsewhere) extender

theorem FileForetold.legible_eq
    (step : FileForetold extender dryRun before path location text first)
    (elsewhere : ∀ other ∈ rest, before.locate .target other ≠ .ok location) :
    first.disk.legible rest = before.legible rest := by
  apply Disk.legible_congr
  intro other membership
  exact step.read_eq (elsewhere other membership)

/-- The contents that later updates leave in the files that can be read, the first one
among them. -/
theorem Foretold.contents_cons (led : before.locate .target path = .ok location)
    (content : before.content? location = some (encode text))
    (step : FileForetold extender dryRun before path location text first)
    (elsewhere : ∀ other ∈ rest, before.locate .target other ≠ .ok location)
    (later : Foretold extender dryRun first.disk rest others) :
    ∀ earlier ∈ before.legible (path :: rest), ∃ there textThere,
      before.locate .target earlier = .ok there ∧
      before.content? there = some (encode textThere) ∧
      others.disk.content? there = some (encode (textAfter extender dryRun textThere)) := by
  have sameLegible := step.legible_eq elsewhere
  rw [Disk.legible_cons_of_ok (Disk.read_eq_ok_iff.mpr ⟨location, led, content⟩),
    List.forall_mem_cons]
  constructor
  · refine ⟨location, text, led, content, ?_⟩
    rw [later.others location, step.contents, if_pos rfl]
    intro other membership
    rw [step.kinds.locate]
    exact elsewhere other (Disk.mem_of_mem_legible (sameLegible ▸ membership))
  · intro other membership
    obtain ⟨there, textThere, ledThere, holds, after⟩ :=
      later.contents other (sameLegible ▸ membership)
    rw [step.kinds.locate] at ledThere
    rw [step.content?_of_leads (elsewhere other (Disk.mem_of_mem_legible membership))
      ledThere] at holds
    exact ⟨there, textThere, ledThere, holds, after⟩

theorem Foretold.others_cons (led : before.locate .target path = .ok location)
    (content : before.content? location = some (encode text))
    (step : FileForetold extender dryRun before path location text first)
    (elsewhere : ∀ other ∈ rest, before.locate .target other ≠ .ok location)
    (later : Foretold extender dryRun first.disk rest others) {there : Location}
    (away : ∀ earlier ∈ before.legible (path :: rest),
      before.locate .target earlier ≠ .ok there) :
    others.disk.content? there = before.content? there := by
  rw [Disk.legible_cons_of_ok (Disk.read_eq_ok_iff.mpr ⟨location, led, content⟩),
    List.forall_mem_cons] at away
  have differs : there ≠ location := fun same => away.1 (same ▸ led)
  rw [later.others there, step.contents, if_neg differs]
  intro other membership
  rw [step.kinds.locate]
  exact away.2 other (step.legible_eq elsewhere ▸ membership)

/-- What can be told behind the update of one file could be told before it. -/
theorem Foretold.cons_of_ok (led : before.locate .target path = .ok location)
    (content : before.content? location = some (encode text))
    (step : FileForetold extender dryRun before path location text first)
    (elsewhere : ∀ other ∈ rest, before.locate .target other ≠ .ok location)
    (later : Foretold extender dryRun first.disk rest others)
    (disk : whole.disk = others.disk)
    (report : whole.report =
      (if before.changes extender path then [announcement dryRun path] else []) ++ others.report)
    (result : whole.result = others.result.map fun updated =>
      if before.changes extender path then path :: updated else updated) :
    Foretold extender dryRun before (path :: rest) whole := by
  have held := Disk.read_eq_ok_iff.mpr ⟨location, led, content⟩
  have sameFailure : rest.findSome? first.disk.failure? = rest.findSome? before.failure? :=
    Disk.findSome?_failure?_congr fun other membership =>
      step.read_eq (elsewhere other membership)
  have sameChanges : ∀ other ∈ rest,
      first.disk.changes extender other = before.changes extender other := by
    intro other membership
    exact step.changes_eq (elsewhere other membership) extender
  refine ⟨?_, ?_, disk ▸ later.kinds.trans step.kinds, ?_, ?_, ?_⟩
  · rw [result, later.result, sameFailure, List.filter_congr sameChanges, List.findSome?_cons,
      Disk.failure?_of_ok held, List.filter_cons]
    cases rest.findSome? before.failure? <;> cases before.changes extender path <;> rfl
  · have sameAmong : ∀ other ∈ before.legible rest,
        first.disk.changes extender other = before.changes extender other := by
      intro other membership
      exact sameChanges other (Disk.mem_of_mem_legible membership)
    rw [report, later.report, step.legible_eq elsewhere, List.filter_congr sameAmong,
      Disk.legible_cons_of_ok held, List.filter_cons]
    cases before.changes extender path <;> rfl
  · rw [disk]
    exact Foretold.contents_cons led content step elsewhere later
  · intro there away
    rw [disk]
    exact Foretold.others_cons led content step elsewhere later away
  · intro isDry
    rw [disk, later.dry isDry, step.dry isDry]

end

theorem updateFiles_foretold (extender : Extender) (dryRun : Bool) {before : Disk}
    {paths : List Path} (apart : paths.Pairwise before.Apart) :
    Foretold extender dryRun before paths (updateFiles extender dryRun before paths) := by
  induction paths generalizing before with
  | nil => exact ⟨rfl, rfl, Disk.SameKinds.refl before, by simp [Disk.legible],
      fun _ _ => rfl, fun _ => rfl⟩
  | cons path rest inductionHypothesis =>
      obtain ⟨apartFirst, apartRest⟩ := List.pairwise_cons.mp apart
      cases held : before.read path with
      | error cause => exact Foretold.cons_of_error held dryRun rest
      | ok text =>
          obtain ⟨location, led, content⟩ := Disk.read_eq_ok_iff.mp held
          have step := updateFile_foretold extender dryRun led content
          have later := inductionHypothesis (apartRest.imp step.kinds.apart)
          obtain ⟨disk, report, result⟩ := updateFiles_cons_of_ok rest step.result rfl
          rw [step.report, List.nil_append] at report
          refine Foretold.cons_of_ok led content step ?_ later disk report result
          intro other membership
          exact apartFirst other membership location led

/-- The effect of updating some files: each has its text extended, those whose text
changes are listed, and nothing else on the disk is different. -/
structure FilesUpdated (extender : Extender) (before after : Disk)
    (paths updated : List Path) : Prop where
  kinds : after.SameKinds before
  listed : updated = paths.filter (before.changes extender)
  contents : ∀ path ∈ paths, ∃ location text, before.locate .target path = .ok location ∧
    before.content? location = some (encode text) ∧
    after.content? location = some (encode (extender.apply text).text)
  others : ∀ location, (∀ path ∈ paths, before.locate .target path ≠ .ok location) →
    after.content? location = before.content? location

theorem updateFiles_ok {extender : Extender} {before : Disk} {paths updated : List Path}
    (apart : paths.Pairwise before.Apart)
    (finished : (updateFiles extender false before paths).result = .ok updated) :
    FilesUpdated extender before (updateFiles extender false before paths).disk paths updated := by
  have told := updateFiles_foretold extender false apart
  have result := told.result
  rw [finished] at result
  cases failure : paths.findSome? before.failure? with
  | some _ =>
      rw [failure] at result
      cases result
  | none =>
      rw [failure, Except.ok.injEq] at result
      have contents := told.contents
      have others := told.others
      rw [Disk.legible_of_no_failure failure] at contents others
      exact ⟨told.kinds, result, contents, others⟩

end ImportSuffix
