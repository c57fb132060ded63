import ImportSuffix.Proofs.Specifier.Stability

/-!
Both rules reach a fixed point together.

The rules are idempotent one by one, and the second one neither makes nor undoes
work of the first.  So another pass over an extended text finds the same forms
again, and finds all of them extended.
-/

namespace ImportSuffix.Specifier

namespace Rule

theorem allows_importFrom_iff {char : Char} : Rule.importFrom.allows char = true ↔
    char ≠ '\'' ∧ char ≠ '"' ∧ char ≠ ';' ∧ char ≠ '\n' := by
  simp [allows, isQuote, and_assoc]

/-- What may stand in the specifier of an import may stand in any. -/
theorem allows_of_allows_importFrom {char : Char} (allowed : Rule.importFrom.allows char = true)
    (rule : Rule) : rule.allows char = true := by
  cases rule with
  | importFrom => exact allowed
  | requireCall =>
      simp only [allows, Bool.and_eq_true] at allowed ⊢
      exact ⟨allowed.1.1, allowed.2⟩

theorem extend_of_not_occursIn {rule : Rule} {text : List Char}
    (absent : rule.occursIn text = false) (extension : List Char) :
    rule.extend extension text = text := by
  rw [← extend?_getD, extend?, absent]
  rfl

theorem occursIn_extend_self {rule : Rule} {extension : List Char}
    (allowed : ∀ char ∈ extension, rule.allows char = true) (unquoted : Unquoted extension)
    (text : List Char) :
    rule.occursIn (rule.extend extension text) = rule.occursIn text := by
  rw [Bool.eq_iff_iff, occursIn_iff, occursIn_iff, Cut.ofText_extend rule unquoted]
  simp only [selected_extend_self_iff allowed]

theorem extend_extend_self {rule : Rule} {extension : List Char}
    (allowed : ∀ char ∈ extension, rule.allows char = true) (unquoted : Unquoted extension)
    (text : List Char) :
    rule.extend extension (rule.extend extension text) = rule.extend extension text := by
  have fixed : ((Cut.ofText text).extend rule extension).extend rule extension =
      (Cut.ofText text).extend rule extension := by
    apply Cut.extend_eq_self
    intro index selected
    rw [Cut.segment_extend_of_selected ((selected_extend_self_iff allowed).mp selected)]
    exact suffix_extend _ _
  rw [extend_eq, Cut.ofText_extend rule unquoted, fixed, ← extend_eq]

theorem occursIn_importFrom_extend {extension : List Char} (unquoted : Unquoted extension)
    (text : List Char) :
    Rule.importFrom.occursIn (Rule.requireCall.extend extension text) =
      Rule.importFrom.occursIn text := by
  rw [Bool.eq_iff_iff, occursIn_iff, occursIn_iff, Cut.ofText_extend _ unquoted]
  simp only [selected_importFrom_extend_iff]

/-- What a rule keeps, it also keeps behind another one that makes no specifiers for it. -/
theorem extend_of_fixed_of_selected {rule other : Rule} {extension text : List Char}
    (unquoted : Unquoted extension)
    (kept : ∀ index, rule.Selected ((Cut.ofText text).extend other extension) index →
      rule.Selected (Cut.ofText text) index ∧ ¬other.Selected (Cut.ofText text) index)
    (fixed : rule.extend extension text = text) :
    rule.extend extension (other.extend extension text) = other.extend extension text := by
  have cutFixed := Cut.ofText_extend rule unquoted text
  rw [fixed] at cutFixed
  have fixedBehind : ((Cut.ofText text).extend other extension).extend rule extension =
      (Cut.ofText text).extend other extension := by
    apply Cut.extend_eq_self
    intro index selected
    obtain ⟨before, untouched⟩ := kept index selected
    rw [Cut.segment_extend_of_not_selected untouched, cutFixed,
      Cut.segment_extend_of_selected before]
    exact suffix_extend _ _
  rw [extend_eq, Cut.ofText_extend _ unquoted, fixedBehind, ← extend_eq]

/-- What the import rule keeps, it also keeps behind the call rule. -/
theorem importFrom_extend_of_fixed {extension text : List Char} (unquoted : Unquoted extension)
    (fixed : Rule.importFrom.extend extension text = text) :
    Rule.importFrom.extend extension (Rule.requireCall.extend extension text) =
      Rule.requireCall.extend extension text := by
  apply extend_of_fixed_of_selected unquoted _ fixed
  intro index selected
  have before := selected_importFrom_extend_iff.mp selected
  exact ⟨before, before.not_requireCall⟩

end Rule

/-- One rule more in front. -/
theorem applyRules_cons (extension : List Char) (rule : Rule) (rules : List Rule)
    (text : List Char) :
    applyRules extension (rule :: rules) text =
      ((applyRules extension rules (rule.extend extension text)).1,
        (if rule.occursIn text then [rule] else []) ++
          (applyRules extension rules (rule.extend extension text)).2) := by
  rw [applyRules, Rule.extend?]
  cases occurs : rule.occursIn text with
  | false => simp [Rule.extend_of_not_occursIn occurs]
  | true => rfl

/-- What rules make of a text: each extends what the one before left. -/
theorem applyRules_fst (extension : List Char) (rules : List Rule) (text : List Char) :
    (applyRules extension rules text).1 =
      rules.foldl (fun text rule => rule.extend extension text) text := by
  induction rules generalizing text with
  | nil => rfl
  | cons rule rules inductionHypothesis =>
      rw [applyRules_cons, inductionHypothesis, List.foldl_cons]

/-- Rules that all keep a text only tell whether their forms occur in it. -/
theorem applyRules_of_fixed {extension text : List Char} {rules : List Rule}
    (fixed : ∀ rule ∈ rules, rule.extend extension text = text) :
    applyRules extension rules text = (text, rules.filter fun rule => rule.occursIn text) := by
  induction rules with
  | nil => rfl
  | cons rule rules inductionHypothesis =>
      have others := inductionHypothesis fun other membership => fixed other (by simp [membership])
      rw [applyRules_cons, fixed rule (by simp), others, List.filter_cons]
      cases rule.occursIn text <;> rfl

theorem applyRules_applyRules {extension : List Char}
    (allowed : ∀ char ∈ extension, Rule.importFrom.allows char = true) (text : List Char) :
    applyRules extension [.importFrom, .requireCall]
        (applyRules extension [.importFrom, .requireCall] text).1 =
      applyRules extension [.importFrom, .requireCall] text := by
  have unquoted : Unquoted extension := Rule.unquoted_of_allows allowed
  have allowedInCall : ∀ char ∈ extension, Rule.requireCall.allows char = true := by
    intro char membership
    exact Rule.allows_of_allows_importFrom (allowed char membership) .requireCall
  let imported := Rule.importFrom.extend extension text
  let final := Rule.requireCall.extend extension imported
  have importKept : Rule.importFrom.extend extension final = final := by
    apply Rule.importFrom_extend_of_fixed unquoted
    exact Rule.extend_extend_self allowed unquoted text
  have callKept : Rule.requireCall.extend extension final = final :=
    Rule.extend_extend_self allowedInCall unquoted imported
  have sameImport : Rule.importFrom.occursIn final = Rule.importFrom.occursIn text := by
    rw [Rule.occursIn_importFrom_extend unquoted]
    exact Rule.occursIn_extend_self allowed unquoted text
  have sameCall : Rule.requireCall.occursIn final = Rule.requireCall.occursIn imported :=
    Rule.occursIn_extend_self allowedInCall unquoted imported
  have once : applyRules extension [.importFrom, .requireCall] text =
      (final, (if Rule.importFrom.occursIn text then [.importFrom] else []) ++
        ((if Rule.requireCall.occursIn imported then [.requireCall] else []) ++ [])) := by
    rw [applyRules_cons, applyRules_cons]
    rfl
  rw [once, applyRules_of_fixed (by simp [importKept, callKept])]
  simp only [List.filter_cons, List.filter_nil, sameImport, sameCall]
  cases Rule.importFrom.occursIn text <;> cases Rule.requireCall.occursIn imported <;> rfl

/-- Another pass over an extended text leaves it as it is. -/
theorem Extender.apply_text_apply {extension : String}
    (allowed : ∀ char ∈ extension.toList, Rule.importFrom.allows char = true) (text : String) :
    ((Extender.ofExtension extension).apply
      ((Extender.ofExtension extension).apply text).text).text =
        ((Extender.ofExtension extension).apply text).text := by
  simp only [Extender.apply, Extender.ofExtension, String.toList_ofList,
    applyRules_applyRules allowed]

/-- What passes over a text leave, the first one as number zero. -/
def Extender.pass (extender : Extender) (text : String) : Nat → Extended
  | 0 => extender.apply text
  | count + 1 => extender.apply (extender.pass text count).text

/-- With an extension that fits into every specifier, all passes leave the text and
match the rules that the first one does. -/
theorem Extender.pass_ofExtension {extension : String}
    (allowed : ∀ char ∈ extension.toList,
      char ≠ '\'' ∧ char ≠ '"' ∧ char ≠ ';' ∧ char ≠ '\n') (text : String) (count : Nat) :
    (Extender.ofExtension extension).pass text count =
      (Extender.ofExtension extension).apply text := by
  have allowedInImport : ∀ char ∈ extension.toList, Rule.importFrom.allows char = true := by
    intro char membership
    obtain ⟨noSingle, noDouble, noSemicolon, noLineFeed⟩ := allowed char membership
    simp [Rule.allows, isQuote, noSingle, noDouble, noSemicolon, noLineFeed]
  have fixed : (Extender.ofExtension extension).apply
      ((Extender.ofExtension extension).apply text).text =
        (Extender.ofExtension extension).apply text := by
    simp only [Extender.apply, Extender.ofExtension, String.toList_ofList,
      applyRules_applyRules allowedInImport]
  induction count with
  | zero => rfl
  | succ count inductionHypothesis => rw [Extender.pass, inductionHypothesis, fixed]

/-- The extension begins another form, and an import ends where a call begins. -/
theorem Extender.pass_ofExtension_overlapping :
    (∀ char ∈ "from ".toList, char ≠ '\'' ∧ char ≠ '"' ∧ char ≠ ';' ∧ char ≠ '\n') ∧
      (Extender.ofExtension "from ").pass "from './a'./b'require('./c')" 1 =
        (Extender.ofExtension "from ").apply "from './a'./b'require('./c')" :=
  ⟨by simp, Extender.pass_ofExtension (by simp) _ 1⟩

end ImportSuffix.Specifier
