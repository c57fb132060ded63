import ImportSuffix.Proofs.Specifier.Insertion

/-!
The two rules, in either order.

An extended import may end where a call begins, namely in front of its opening quote.  An
extension that does not end as the head of a call can only close that call to the search, and
opens none.  Where no import ends in such a head, each rule finds the same specifiers before
and behind the other, and the order of the two does not matter.
-/

namespace ImportSuffix.Specifier

namespace Rule

section

variable {extension : List Char} (unopened : extension.getLast? ≠ some '(')
include unopened

/-- A segment that is extended ends in the head of a call only if it was extended already. -/
theorem opens_of_opens_extend {segment : List Char}
    (opens : Rule.requireCall.Opens (Specifier.extend extension segment)) :
    Rule.requireCall.Opens segment := by
  rcases extend_eq_self_or_append extension segment with same | appended
  · rwa [same] at opens
  · rw [appended] at opens
    obtain ⟨front, whole⟩ := opens_requireCall_iff.mp opens
    cases extension.eq_nil_or_concat with
    | inl empty => rwa [empty, List.append_nil] at opens
    | inr longer =>
        obtain ⟨others, last, rfl⟩ := longer
        have lastOf := congrArg List.getLast? whole
        rw [List.concat_eq_append, ← List.append_assoc, List.getLast?_concat] at lastOf
        have parenthesis : last = '(' := by simpa using lastOf.symm
        exact absurd (by simp [parenthesis]) unopened

/-- Extending imports makes no call. -/
theorem candidate_requireCall_of_extend {cut : Cut} {index : Nat}
    (candidate : Rule.requireCall.Candidate (cut.extend .importFrom extension) index) :
    Rule.requireCall.Candidate cut index ∧ ¬Rule.importFrom.Selected cut index := by
  cases index with
  | zero => exact False.elim candidate
  | succ index =>
      obtain ⟨inside, opens, body, closed⟩ := candidate
      have opensBefore : Rule.requireCall.Opens (cut.segment index) := by
        rw [Cut.segment_extend] at opens
        split at opens
        · exact opens_of_opens_extend unopened opens
        · exact opens
      have unselected : ¬Rule.importFrom.Selected cut (index + 1) :=
        fun selected => selected.1.2.1.not_requireCall opensBefore
      rw [Cut.segment_extend_of_not_selected unselected] at body
      rw [closing_prefix_segment_extend_iff] at closed
      exact ⟨⟨by simpa using inside, opensBefore, body, closed⟩, unselected⟩

/-- Extending imports moves no call, if none of them ends in the head of one. -/
theorem candidate_requireCall_extend_iff {cut : Cut}
    (apart : ∀ index, Rule.importFrom.Selected cut index →
      ¬Rule.requireCall.Opens (cut.segment index)) {index : Nat} :
    Rule.requireCall.Candidate (cut.extend .importFrom extension) index ↔
      Rule.requireCall.Candidate cut index := by
  constructor
  · exact fun candidate => (candidate_requireCall_of_extend unopened candidate).1
  · intro candidate
    cases index with
    | zero => exact False.elim candidate
    | succ index =>
        obtain ⟨inside, opens, body, closed⟩ := candidate
        have front : ¬Rule.importFrom.Selected cut index :=
          fun selected => apart index selected opens
        have here : ¬Rule.importFrom.Selected cut (index + 1) :=
          fun selected => selected.1.2.1.not_requireCall opens
        refine ⟨by simpa using inside, ?_, ?_, closing_prefix_segment_extend_iff.mpr closed⟩
        · rwa [Cut.segment_extend_of_not_selected front]
        · rwa [Cut.segment_extend_of_not_selected here]

end

end Rule

/-- Rules that find the same specifiers before and behind each other can change places. -/
theorem Cut.extend_extend_comm {first second : Rule} {extension : List Char} {cut : Cut}
    (sameFirst : ∀ index,
      first.Selected (cut.extend second extension) index ↔ first.Selected cut index)
    (sameSecond : ∀ index,
      second.Selected (cut.extend first extension) index ↔ second.Selected cut index) :
    (cut.extend first extension).extend second extension =
      (cut.extend second extension).extend first extension := by
  apply Cut.eq_of_quotes_of_segments
  · simp only [Cut.quotes_extend]
  · intro index
    simp only [Cut.segment_extend, sameFirst, sameSecond]
    by_cases isFirst : first.Selected cut index <;>
      by_cases isSecond : second.Selected cut index <;>
        simp only [isFirst, isSecond, if_true, if_false]

namespace Rule

/-- The two rules find the same specifiers in either order, where no import that is found ends
in the head of a call. -/
theorem extend_extend_comm {extension text : List Char} (unquoted : Unquoted extension)
    (unopened : extension.getLast? ≠ some '(')
    (apart : ∀ reading ∈ Rule.importFrom.readings text,
      ¬Rule.requireCall.Opens reading.specifier) :
    Rule.requireCall.extend extension (Rule.importFrom.extend extension text) =
      Rule.importFrom.extend extension (Rule.requireCall.extend extension text) := by
  have apartInCut : ∀ index, Rule.importFrom.Selected (Cut.ofText text) index →
      ¬Rule.requireCall.Opens ((Cut.ofText text).segment index) := by
    intro index selected
    have found := exists_reading_text_iff .importFrom (Cut.proper_ofText text)
    simp only [Cut.text_ofText] at found
    obtain ⟨reading, membership, same⟩ := (found _).mpr ⟨index, selected, rfl⟩
    exact same ▸ apart reading membership
  have sameCalls : ∀ index,
      Rule.requireCall.Selected ((Cut.ofText text).extend .importFrom extension) index ↔
        Rule.requireCall.Selected (Cut.ofText text) index := by
    intro index
    rw [selected_requireCall_iff, selected_requireCall_iff]
    exact candidate_requireCall_extend_iff unopened apartInCut
  rw [extend_eq, Cut.ofText_extend _ unquoted,
    Cut.extend_extend_comm (fun _ => selected_importFrom_extend_iff) sameCalls,
    ← Cut.ofText_extend _ unquoted, ← extend_eq]

end Rule

/-- The order of the two rules does not matter to a text, unless an import that the search
finds in it runs into the head of a call. -/
theorem Extender.apply_comm {extension text : String}
    (unquoted : ∀ char ∈ extension.toList, isQuote char = false)
    (unopened : extension.toList.getLast? ≠ some '(')
    (apart : ∀ reading ∈ Rule.importFrom.readings text.toList,
      ¬"require(".toList <:+ reading.specifier) :
    ((Extender.mk [.importFrom, .requireCall] extension).apply text).text =
      ((Extender.mk [.requireCall, .importFrom] extension).apply text).text := by
  have apartHeads : ∀ reading ∈ Rule.importFrom.readings text.toList,
      ¬Rule.requireCall.Opens reading.specifier := by
    intro reading membership opens
    exact apart reading membership (Rule.opens_requireCall_iff.mp opens)
  simp only [Extender.apply, applyRules_fst, List.foldl_cons, List.foldl_nil,
    Rule.extend_extend_comm unquoted unopened apartHeads]

/-- An extension that ends a statement and begins an import. -/
def beginningImport : String := ";\nfrom "

/-- The head of an import lies in the specifier of another one, and its own specifier is
followed by a call. -/
def overlappingImports : String := "from './a from './b'require('./c')"

theorem Extender.apply_comm_overlapping :
    (∀ char ∈ beginningImport.toList, isQuote char = false) ∧
      beginningImport.toList.getLast? ≠ some '(' ∧
      (∀ reading ∈ Rule.importFrom.readings overlappingImports.toList,
        ¬"require(".toList <:+ reading.specifier) ∧
      ((Extender.mk [.importFrom, .requireCall] beginningImport).apply overlappingImports).text =
        "from './a from ;\nfrom './b'require('./c;\nfrom ')" ∧
      ((Extender.mk [.importFrom, .requireCall] beginningImport).apply overlappingImports).text =
        ((Extender.mk [.requireCall, .importFrom] beginningImport).apply
          overlappingImports).text := by
  have unquoted : ∀ char ∈ beginningImport.toList, isQuote char = false := by
    simp [beginningImport, isQuote]
  have unopened : beginningImport.toList.getLast? ≠ some '(' := by decide
  have apart : ∀ reading ∈ Rule.importFrom.readings overlappingImports.toList,
      ¬"require(".toList <:+ reading.specifier := by
    decide +kernel
  exact ⟨unquoted, unopened, apart, by decide +kernel,
    Extender.apply_comm unquoted unopened apart⟩

/-- An import that runs into the head of a call closes it, if it is extended first. -/
example :
    ((Extender.mk [.importFrom, .requireCall] ".js").apply "from './require('./a')").text =
        "from './require(.js'./a')" ∧
      ((Extender.mk [.requireCall, .importFrom] ".js").apply "from './require('./a')").text =
        "from './require(.js'./a.js')" := by
  decide +kernel

end ImportSuffix.Specifier
