import ImportSuffix.Proofs.Specifier.Commutation

/-!
Lists of rules, in any order and with repeats.

What a rule keeps, it still keeps behind the other one, which makes no specifiers for it.  So
a text that a list of rules has gone through is kept by each of them, and of the places of a
rule in the list only the first one counts.
-/

namespace ImportSuffix.Specifier

/-- What the call rule keeps, it also keeps behind the import rule. -/
theorem Rule.requireCall_extend_of_fixed {extension text : List Char}
    (unquoted : Unquoted extension) (unopened : extension.getLast? ≠ some '(')
    (fixed : Rule.requireCall.extend extension text = text) :
    Rule.requireCall.extend extension (Rule.importFrom.extend extension text) =
      Rule.importFrom.extend extension text := by
  apply extend_of_fixed_of_selected unquoted _ fixed
  intro index selected
  rw [selected_requireCall_iff] at selected ⊢
  exact candidate_requireCall_of_extend unopened selected

/-- What a rule keeps, it keeps behind any other. -/
theorem Rule.extend_of_fixed {rule : Rule} {extension text : List Char}
    (unquoted : Unquoted extension) (unopened : extension.getLast? ≠ some '(')
    (fixed : rule.extend extension text = text) (other : Rule) :
    rule.extend extension (other.extend extension text) = other.extend extension text := by
  by_cases same : other = rule
  · rw [same, fixed, fixed]
  · cases rule with
    | importFrom =>
        cases other with
        | importFrom => exact absurd rfl same
        | requireCall => exact importFrom_extend_of_fixed unquoted fixed
    | requireCall =>
        cases other with
        | importFrom => exact requireCall_extend_of_fixed unquoted unopened fixed
        | requireCall => exact absurd rfl same

section

variable {extension : List Char} (unquoted : Unquoted extension)
  (unopened : extension.getLast? ≠ some '(')
include unquoted unopened

theorem extend_applyRules_of_fixed {rule : Rule} {text : List Char} (rules : List Rule)
    (fixed : rule.extend extension text = text) :
    rule.extend extension (applyRules extension rules text).1 =
      (applyRules extension rules text).1 := by
  induction rules generalizing text with
  | nil => exact fixed
  | cons other rules inductionHypothesis =>
      rw [applyRules_cons]
      exact inductionHypothesis (Rule.extend_of_fixed unquoted unopened fixed other)

/-- A rule that keeps a text can be left out. -/
theorem applyRules_filter_of_fixed {rule : Rule} {text : List Char} (rules : List Rule)
    (fixed : rule.extend extension text = text) :
    (applyRules extension (rules.filter fun other => !other == rule) text).1 =
      (applyRules extension rules text).1 := by
  induction rules generalizing text with
  | nil => rfl
  | cons other rules inductionHypothesis =>
      have later := inductionHypothesis (Rule.extend_of_fixed unquoted unopened fixed other)
      by_cases same : other = rule
      · rw [List.filter_cons_of_neg (by simp [same]), applyRules_cons, ← later, same, fixed]
      · rw [List.filter_cons_of_pos (by simp [same]), applyRules_cons, applyRules_cons, later]

end

section

variable {extension : List Char}
  (allowed : ∀ char ∈ extension, Rule.importFrom.allows char = true)
include allowed

theorem Rule.extend_extend (rule : Rule) (text : List Char) :
    rule.extend extension (rule.extend extension text) = rule.extend extension text := by
  apply extend_extend_self _ (unquoted_of_allows allowed)
  intro char membership
  exact allows_of_allows_importFrom (allowed char membership) rule

variable (unopened : extension.getLast? ≠ some '(')
include unopened

/-- Every rule of a list keeps what the list has gone through. -/
theorem extend_applyRules_of_mem {rules : List Rule} {rule : Rule} (membership : rule ∈ rules)
    (text : List Char) :
    rule.extend extension (applyRules extension rules text).1 =
      (applyRules extension rules text).1 := by
  induction rules generalizing text with
  | nil => cases membership
  | cons first rules inductionHypothesis =>
      rw [applyRules_cons]
      rcases List.mem_cons.mp membership with rfl | later
      · exact extend_applyRules_of_fixed (Rule.unquoted_of_allows allowed) unopened rules
          (rule.extend_extend allowed text)
      · exact inductionHypothesis later _

/-- Only the first place of each rule counts. -/
theorem applyRules_eraseDups (rules : List Rule) (text : List Char) :
    (applyRules extension rules.eraseDups text).1 = (applyRules extension rules text).1 := by
  -- What follows the first place of a rule is cleared of it, and so is no longer than before.
  induction size : rules.length using Nat.strongRecOn generalizing rules text with
  | ind bound inductionHypothesis =>
      cases rules with
      | nil => rfl
      | cons rule rules =>
          have shorter : (rules.filter fun other => !other == rule).length < bound := by
            rw [← size]
            exact Nat.lt_succ_of_le (List.length_filter_le _ _)
          rw [List.eraseDups_cons, applyRules_cons, applyRules_cons,
            inductionHypothesis _ shorter _ _ rfl]
          exact applyRules_filter_of_fixed (Rule.unquoted_of_allows allowed) unopened rules
            (rule.extend_extend allowed text)

/-- Rules that a text has gone through change it no more. -/
theorem applyRules_append_of_subset {rules more : List Rule} (subset : more ⊆ rules)
    (text : List Char) :
    (applyRules extension (rules ++ more) text).1 = (applyRules extension rules text).1 := by
  rw [applyRules_fst, List.foldl_append, ← applyRules_fst, ← applyRules_fst, applyRules_of_fixed]
  intro rule membership
  exact extend_applyRules_of_mem allowed unopened (subset membership) text

end

/-- Rules that keep a text leave it as it is. -/
theorem Extender.text_apply_of_fixed {extender : Extender} {text : String}
    (fixed : ∀ rule ∈ extender.rules,
      rule.extend extender.extension.toList text.toList = text.toList) :
    (extender.apply text).text = text := by
  simp only [Extender.apply, applyRules_of_fixed fixed, String.ofList_toList]

/-- The text that an extender has gone through is settled: none of its rules changes it any
more, alone or in another pass.  Of the places of a rule only the first one was needed, and
further ones behind the others would make no difference. -/
theorem Extender.apply_settled {rules : List Rule} {extension : String}
    (allowed : ∀ char ∈ extension.toList,
      char ≠ '\'' ∧ char ≠ '"' ∧ char ≠ ';' ∧ char ≠ '\n')
    (unopened : extension.toList.getLast? ≠ some '(') (text : String) :
    (∀ rule ∈ rules, ((Extender.mk [rule] extension).apply
        ((Extender.mk rules extension).apply text).text).text =
      ((Extender.mk rules extension).apply text).text) ∧
    ((Extender.mk rules.eraseDups extension).apply text).text =
      ((Extender.mk rules extension).apply text).text ∧
    (∀ more, more ⊆ rules → ((Extender.mk (rules ++ more) extension).apply text).text =
      ((Extender.mk rules extension).apply text).text) ∧
    (∀ count, ((Extender.mk rules extension).pass text count).text =
      ((Extender.mk rules extension).apply text).text) := by
  have allowedInImport : ∀ char ∈ extension.toList, Rule.importFrom.allows char = true :=
    fun char membership => Rule.allows_importFrom_iff.mpr (allowed char membership)
  have kept : ∀ rule ∈ rules, rule.extend extension.toList
      ((Extender.mk rules extension).apply text).text.toList =
        ((Extender.mk rules extension).apply text).text.toList := by
    intro rule membership
    simp only [Extender.apply, String.toList_ofList]
    exact extend_applyRules_of_mem allowedInImport unopened membership text.toList
  refine ⟨?_, ?_, ?_, ?_⟩
  · intro rule membership
    exact Extender.text_apply_of_fixed (List.forall_mem_singleton.mpr (kept rule membership))
  · simp only [Extender.apply, applyRules_eraseDups allowedInImport unopened]
  · intro more subset
    simp only [Extender.apply, applyRules_append_of_subset allowedInImport unopened subset]
  · intro count
    induction count with
    | zero => rfl
    | succ count inductionHypothesis =>
        rw [Extender.pass, inductionHypothesis]
        exact Extender.text_apply_of_fixed kept

/-- The call rule before and behind the import rule. -/
def callsAround : Extender := ⟨[.requireCall, .importFrom, .requireCall], ".js"⟩

/-- An import that runs into the head of a call, and a call of its own. -/
def interruptedImport : String := "from './require('./a')require('./b')"

/-- The first call is extended before the import that runs into it, and is none behind that. -/
theorem Extender.apply_settled_interrupted :
    (∀ char ∈ callsAround.extension.toList,
        char ≠ '\'' ∧ char ≠ '"' ∧ char ≠ ';' ∧ char ≠ '\n') ∧
      callsAround.extension.toList.getLast? ≠ some '(' ∧
      (callsAround.apply interruptedImport).text = "from './require(.js'./a.js')require('./b.js')" ∧
      (∀ rule ∈ callsAround.rules,
        ((Extender.mk [rule] callsAround.extension).apply
            (callsAround.apply interruptedImport).text).text =
          (callsAround.apply interruptedImport).text) ∧
      ((Extender.mk [.requireCall, .importFrom] ".js").apply interruptedImport).text =
        (callsAround.apply interruptedImport).text ∧
      (callsAround.pass interruptedImport 1).text = (callsAround.apply interruptedImport).text := by
  have allowed : ∀ char ∈ callsAround.extension.toList,
      char ≠ '\'' ∧ char ≠ '"' ∧ char ≠ ';' ∧ char ≠ '\n' := by
    simp [callsAround]
  have unopened : callsAround.extension.toList.getLast? ≠ some '(' := by decide
  obtain ⟨kept, firstPlaces, _, passes⟩ :=
    @Extender.apply_settled callsAround.rules _ allowed unopened interruptedImport
  exact ⟨allowed, unopened, by decide +kernel, kept, firstPlaces, passes 1⟩

end ImportSuffix.Specifier
