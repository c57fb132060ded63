import ImportSuffix.Proofs.Specifier.Recovery
import ImportSuffix.Settings.Basic

/-!
Extensions that pass the check of the settings.

Such an extension has a dot, and of the characters that a specifier cannot hold it may have the
line feed only.  Without one, all that is written can be read back.
-/

namespace ImportSuffix

open Specifier

namespace Settings

variable {settings : Settings}

theorem check_eq_ok_iff : settings.check = .ok () ↔
    settings.targetName.isEmpty = false ∧ settings.targetName.toList.any separatesNames = false ∧
      2 ≤ settings.extension.utf8ByteSize ∧
      settings.extension.toList.any breaksSpecifier = false := by
  unfold check problem?
  grind

/-- An extension that passes its check fits into every specifier, but for line feeds. -/
theorem admits_of_check (accepted : settings.check = .ok ()) :
    ∀ char ∈ settings.extension.toList, char ≠ '\n' → Rule.importFrom.allows char = true := by
  obtain ⟨_, _, _, unbroken⟩ := check_eq_ok_iff.mp accepted
  intro char membership noLineFeed
  have harmless : breaksSpecifier char = false := by
    simpa using List.any_eq_false.mp unbroken char membership
  simp only [breaksSpecifier, Bool.or_eq_false_iff, beq_eq_false_iff_ne] at harmless
  obtain ⟨⟨⟨noSingle, noDouble⟩, noSemicolon⟩, _⟩ := harmless
  exact Rule.allows_importFrom_iff.mpr ⟨noSingle, noDouble, noSemicolon, noLineFeed⟩

theorem allows_of_check (accepted : settings.check = .ok ())
    (oneLine : '\n' ∉ settings.extension.toList) :
    ∀ char ∈ settings.extension.toList, Rule.importFrom.allows char = true := by
  intro char membership
  exact admits_of_check accepted char membership (ne_of_mem_of_not_mem membership oneLine)

/-- An extension begins with a dot, unless it is empty. -/
theorem head?_dotted {given : String} (nonempty : dotted given ≠ "") :
    (dotted given).toList.head? = some '.' := by
  unfold dotted at nonempty ⊢
  split
  next none =>
    simp_all
  next dot => exact dot
  next => simp

theorem dot_mem_of_check {given : String} (fromGiven : settings.extension = dotted given)
    (accepted : settings.check = .ok ()) : '.' ∈ settings.extension.toList := by
  obtain ⟨_, _, long, _⟩ := check_eq_ok_iff.mp accepted
  have nonempty : dotted given ≠ "" := by
    intro empty
    rw [fromGiven, empty] at long
    cases long
  rw [fromGiven]
  exact List.mem_of_mem_head? (head?_dotted nonempty)

/-- Under an accepted extension, a rule reads back what it writes exactly if the extension has no
line feed, or nothing is found at all.  What is read back ends in the extension.  One pass
settles all texts, unless the extension has a line feed and ends as the head of an import. -/
theorem readsBack_iff_of_check {given : String} (fromGiven : settings.extension = dotted given)
    (accepted : settings.check = .ok ()) :
    (∀ (rule : Rule) (text : List Char),
      rule.ReadsBack settings.extension.toList text ↔
        '\n' ∉ settings.extension.toList ∨ rule.occursIn text = false) ∧
    (∀ (rule : Rule) (text : List Char), rule.ReadsBack settings.extension.toList text →
      ∀ again ∈ rule.readings (rule.extend settings.extension.toList text),
        settings.extension.toList <:+ again.specifier) ∧
    ((∀ text, ((Extender.ofExtension settings.extension).apply
        ((Extender.ofExtension settings.extension).apply text).text).text =
          ((Extender.ofExtension settings.extension).apply text).text) ↔
      '\n' ∉ settings.extension.toList ∨ ¬Rule.importFrom.Opens settings.extension.toList) := by
  have admitted := admits_of_check accepted
  refine ⟨fun rule text => ?_, fun rule text => Rule.ReadsBack.suffix, ?_⟩
  · apply Rule.readsBack_iff
    intro char membership noLineFeed
    exact Rule.allows_of_allows_importFrom (admitted char membership noLineFeed) rule
  · exact Extender.settles_iff admitted (dot_mem_of_check fromGiven accepted)

/-- An extension with a line feed, which opens no import. -/
def brokenSettings : Settings :=
  { Settings.ofRoot (.ofText "packages") with extension := dotted "x\ny" }

theorem readsBack_iff_of_check_broken :
    brokenSettings.extension = dotted "x\ny" ∧ brokenSettings.check = .ok () ∧
      ¬Rule.importFrom.ReadsBack brokenSettings.extension.toList "from './a'".toList ∧
      Rule.requireCall.ReadsBack brokenSettings.extension.toList "from './a'".toList ∧
      (∀ text, ((Extender.ofExtension brokenSettings.extension).apply
        ((Extender.ofExtension brokenSettings.extension).apply text).text).text =
          ((Extender.ofExtension brokenSettings.extension).apply text).text) := by
  have accepted : brokenSettings.check = .ok () := rfl
  have unopened : ¬Rule.importFrom.Opens brokenSettings.extension.toList := by decide +kernel
  obtain ⟨readsBack, _, settles⟩ := @readsBack_iff_of_check brokenSettings "x\ny" rfl accepted
  refine ⟨rfl, accepted, ?_, ?_, settles.mpr (.inr unopened)⟩
  · rw [readsBack]
    decide +kernel
  · rw [readsBack]
    decide +kernel

/-- An extension with a line feed, which ends as the head of an import. -/
def openingSettings : Settings :=
  { Settings.ofRoot (.ofText "packages") with extension := dotted "\nfrom " }

/-- The import that was found is not found again, and another pass extends what follows it. -/
theorem not_readsBack_opening :
    openingSettings.extension = dotted "\nfrom " ∧ openingSettings.check = .ok () ∧
      (∃ reading ∈ Rule.importFrom.readings "from './a'./b'".toList,
        ∀ again ∈ Rule.importFrom.readings
            (Rule.importFrom.extend openingSettings.extension.toList "from './a'./b'".toList),
          again.specifier ≠ extend openingSettings.extension.toList reading.specifier ∧
            ¬openingSettings.extension.toList <:+ again.specifier) ∧
      ((Extender.ofExtension openingSettings.extension).apply "from './a'./b'").text =
        "from './a.\nfrom './b'" ∧
      ((Extender.ofExtension openingSettings.extension).apply
        ((Extender.ofExtension openingSettings.extension).apply "from './a'./b'").text).text =
        "from './a.\nfrom './b.\nfrom '" :=
  ⟨rfl, rfl, by decide +kernel, by decide +kernel, by decide +kernel⟩

end Settings

end ImportSuffix
