import ImportSuffix.Proofs.Run.Update
import ImportSuffix.Proofs.Specifier.Growth

/-!
The update of one file, by itself.

Whatever its path passes through, a file that could be read can be written, in the same place.
So an update fails only where reading fails, and it writes exactly the files in which some rule
finds a specifier without the extension.
-/

namespace ImportSuffix

open Text Specifier

/-- Whether it writes or not, an update reports what reading its file tells. -/
theorem updateFile_result (extender : Extender) (dryRun : Bool) (disk : Disk) (path : Path) :
    (updateFile extender dryRun disk path).result =
      match disk.read path with
      | .error cause => .error (.read path cause)
      | .ok text => .ok (if (extender.apply text).text = text then .unchanged else .updated) := by
  cases held : disk.read path with
  | error cause => rw [updateFile, readText_of_error held]
  | ok text =>
      obtain ⟨location, led, content⟩ := Disk.read_eq_ok_iff.mp held
      rw [(updateFile_foretold extender dryRun led content).result, Disk.changes_of_read held]
      by_cases same : (extender.apply text).text = text <;> simp [same]

section

variable {extender : Extender} {dryRun : Bool} {disk : Disk} {path : Path}

theorem read_of_updateFile_failed {failure : Failure}
    (failed : (updateFile extender dryRun disk path).result = .error failure) :
    ∃ cause, disk.read path = .error cause ∧ failure = .read path cause := by
  rw [updateFile_result] at failed
  cases held : disk.read path with
  | error cause =>
      rw [held] at failed
      cases failed
      exact ⟨cause, rfl, rfl⟩
  | ok text =>
      rw [held] at failed
      cases failed

theorem updateFile_updated_iff :
    (updateFile extender dryRun disk path).result = .ok .updated ↔
      ∃ text, disk.read path = .ok text ∧ (extender.apply text).text ≠ text := by
  rw [updateFile_result]
  cases disk.read path with
  | error cause => simp
  | ok text => by_cases same : (extender.apply text).text = text <;> simp [same]

/-- An update that does not say that the file changes leaves the disk as it is. -/
theorem updateFile_disk_of_not_updated
    (unchanged : (updateFile extender dryRun disk path).result ≠ .ok .updated) :
    (updateFile extender dryRun disk path).disk = disk := by
  apply updateFile_disk_of_unchanged
  cases held : disk.read path with
  | error cause => rw [Disk.changes, held]
  | ok text =>
      rw [Disk.changes_of_read held, decide_eq_false_iff_not]
      intro differs
      exact unchanged (updateFile_updated_iff.mpr ⟨text, held, differs⟩)

end

/-- The file to which a path leads got its text extended, and nothing else is different: what
there is at each location, with the targets of links and the names that directories list, and
the content of every other file. -/
def Rewritten (extender : Extender) (path : Path) (before after : Disk) : Prop :=
  ∃ location text, before.locate .target path = .ok location ∧
    before.content? location = some (encode text) ∧ (extender.apply text).text ≠ text ∧
    after.content? location = some (encode (extender.apply text).text) ∧
    after.SameKinds before ∧
    ∀ other, other ≠ location → after.content? other = before.content? other

theorem rewritten_of_updated {extender : Extender} {disk : Disk} {path : Path}
    (updated : (updateFile extender false disk path).result = .ok .updated) :
    Rewritten extender path disk (updateFile extender false disk path).disk := by
  obtain ⟨text, held, differs⟩ := updateFile_updated_iff.mp updated
  obtain ⟨location, led, content⟩ := Disk.read_eq_ok_iff.mp held
  have told := updateFile_foretold extender false led content
  refine ⟨location, text, led, content, differs, ?_, told.kinds, ?_⟩
  · rw [told.contents, if_pos rfl]
    rfl
  · intro other elsewhere
    rw [told.contents, if_neg elsewhere]

/-- What an extender finds in a text, and when it changes the text, is decided by the text as it
is given, for rules in any order and with repeats.  What a rule has added is never taken away.
So the files that are updated are those in which some rule finds a specifier that lacks the
extension. -/
theorem changes_iff_findsUnextended (extender : Extender) :
    (∀ text,
      ((extender.apply text).matched ≠ [] ↔
        ∃ rule ∈ extender.rules, rule.readings text.toList ≠ []) ∧
      ((extender.apply text).matched = [] → (extender.apply text).text = text) ∧
      ((extender.apply text).text ≠ text ↔
        ∃ rule ∈ extender.rules, rule.FindsUnextended extender.extension.toList text.toList) ∧
      ((extender.apply text).text ≠ text → text.length < (extender.apply text).text.length) ∧
      ∀ front back, extender.rules = front ++ back →
        ((Extender.mk front extender.extension).apply text).text.toList.Sublist
          (extender.apply text).text.toList) ∧
    ∀ dryRun disk path, (updateFile extender dryRun disk path).result = .ok .updated ↔
      ∃ text, disk.read path = .ok text ∧
        ∃ rule ∈ extender.rules,
          rule.FindsUnextended extender.extension.toList text.toList := by
  have changes (text : String) : (extender.apply text).text ≠ text ↔
      (applyRules extender.extension.toList extender.rules text.toList).1 ≠ text.toList := by
    rw [Extender.apply, ne_eq, ← String.toList_inj, String.toList_ofList]
  refine ⟨fun text => ⟨applyRules_snd_ne_nil_iff, ?_, ?_, ?_, ?_⟩, ?_⟩
  · intro unmatched
    simp only [Extender.apply] at unmatched ⊢
    rw [applyRules_fst_of_snd_eq_nil unmatched, String.ofList_toList]
  · rw [changes, applyRules_fst_ne_iff]
  · intro changed
    have longer := length_lt_applyRules ((changes text).mp changed)
    rwa [Extender.apply, String.length_ofList, ← String.length_toList]
  · intro front back rules
    simp only [Extender.apply, String.toList_ofList, rules]
    exact applyRules_sublist_append extender.extension.toList front back text.toList
  · intro dryRun disk path
    simp only [updateFile_updated_iff, changes, applyRules_fst_ne_iff]

/-- The update of one file in all its ways to end.  It does the same in a dry run, but for
writing.  It fails only where the file cannot be read; it changes the disk only if it says so,
and then nothing but the file to which the path leads. -/
theorem updateFile_frame (extender : Extender) (disk : Disk) (path : Path) :
    (updateFile extender true disk path).result = (updateFile extender false disk path).result ∧
    (∀ dryRun failure, (updateFile extender dryRun disk path).result = .error failure →
      (∃ cause, failure = .read path cause) ∧
        (updateFile extender dryRun disk path).disk = disk) ∧
    (∀ dryRun, (updateFile extender dryRun disk path).result = .ok .unchanged →
      (updateFile extender dryRun disk path).disk = disk) ∧
    (updateFile extender true disk path).disk = disk ∧
    ((updateFile extender false disk path).result = .ok .updated →
      Rewritten extender path disk (updateFile extender false disk path).disk) := by
  refine ⟨?_, ?_, ?_, updateFile_disk_of_dryRun extender disk path, rewritten_of_updated⟩
  · rw [updateFile_result, updateFile_result]
  · intro dryRun failure failed
    obtain ⟨cause, _, isRead⟩ := read_of_updateFile_failed failed
    refine ⟨⟨cause, isRead⟩, updateFile_disk_of_not_updated ?_⟩
    rw [failed]
    simp
  · intro dryRun unchanged
    apply updateFile_disk_of_not_updated
    rw [unchanged]
    simp

end ImportSuffix
