import ImportSuffix.Proofs.Specifier.Occurrences
import Mathlib.Logic.Basic

/-!
The two forms, described by the segments of a text.

An import takes every other one of neighbouring candidates, since the head of the
next lies in the specifier of the one before.  A call takes all of them: the
parenthesis behind a specifier begins no specifier of its own.
-/

namespace ImportSuffix.Specifier

open Text

namespace Rule

/-- The selection, read from left to right. -/
theorem selected_iff {rule : Rule} {cut : Cut} {index : Nat} :
    rule.Selected cut index ↔ rule.Candidate cut index ∧ ¬rule.Selected cut (index - 1) := by
  cases index with
  | zero => exact ⟨False.elim, fun both => both.1⟩
  | succ index => exact Iff.rfl

theorem extend_eq_append (extension specifier : List Char) :
    Specifier.extend extension specifier =
      if ¬extension <:+ specifier then specifier ++ extension else specifier := by
  unfold Specifier.extend
  by_cases ends : extension <:+ specifier
  · rw [if_pos (List.isSuffixOf_iff_suffix.mpr ends), if_neg (not_not_intro ends)]
  · rw [if_neg (fun found => ends (List.isSuffixOf_iff_suffix.mp found)), if_pos ends]

theorem occursIn_iff {rule : Rule} {text : List Char} :
    rule.occursIn text = true ↔ ∃ index, rule.Selected (Cut.ofText text) index := by
  have found := rule.occursIn_text_iff (Cut.proper_ofText text)
  rwa [Cut.text_ofText] at found

theorem extend_eq {rule : Rule} {extension text : List Char} :
    rule.extend extension text = ((Cut.ofText text).extend rule extension).text := by
  have extended := rule.extend_text extension (Cut.proper_ofText text)
  rwa [Cut.text_ofText] at extended

theorem extend?_eq_none_iff {rule : Rule} {extension text : List Char} :
    rule.extend? extension text = none ↔ ∀ index, ¬rule.Selected (Cut.ofText text) index := by
  rw [extend?, ite_eq_right_iff]
  simp only [reduceCtorEq, imp_false, occursIn_iff, not_exists]

theorem extend_of_not_selected {rule : Rule} {cut : Cut}
    (unselected : ∀ index, ¬rule.Selected cut index) (extension : List Char) :
    cut.extend rule extension = cut := by
  simp only [Cut.extend, unselected, if_false, Cut.mapSegments_id]

theorem extend?_getD {rule : Rule} {extension text : List Char} :
    (rule.extend? extension text).getD text = rule.extend extension text := by
  cases result : rule.extend? extension text with
  | none =>
      have unselected := extend?_eq_none_iff.mp result
      rw [extend_eq, extend_of_not_selected unselected, Cut.text_ofText]
      rfl
  | some extended =>
      rw [extend?, Option.ite_none_right_eq_some, Option.some.injEq] at result
      rw [← result.2]
      rfl

theorem extend?_getD_eq_mapSegments {rule : Rule} {extension text : List Char} :
    (rule.extend? extension text).getD text =
      ((Cut.ofText text).mapSegments fun index segment =>
        if rule.Selected (Cut.ofText text) index ∧ ¬extension <:+ segment then
          segment ++ extension
        else segment).text := by
  rw [extend?_getD, extend_eq, Cut.extend]
  simp only [extend_eq_append, ite_and]

/-- The characters that a specifier may hold, if it is known to hold no quotes. -/
theorem body_importFrom_iff {segment : List Char} (unquoted : Unquoted segment) :
    Rule.importFrom.Body segment ↔ "./".toList <+: segment ∧ 2 < segment.length ∧
      ';' ∉ segment ∧ '\n' ∉ segment := by
  rw [body_iff]
  refine and_congr_right fun _ => and_congr_right fun _ => ?_
  constructor
  · intro allowed
    exact ⟨fun membership => absurd (allowed _ membership) (by decide),
      fun membership => absurd (allowed _ membership) (by decide)⟩
  · rintro ⟨noSemicolon, noLineFeed⟩ char membership
    have others : char ≠ ';' ∧ char ≠ '\n' :=
      ⟨ne_of_mem_of_not_mem membership noSemicolon, ne_of_mem_of_not_mem membership noLineFeed⟩
    simp [allows, unquoted char membership, others]

theorem body_requireCall_iff {segment : List Char} (unquoted : Unquoted segment) :
    Rule.requireCall.Body segment ↔ "./".toList <+: segment ∧ 2 < segment.length ∧
      '\n' ∉ segment := by
  rw [body_iff]
  refine and_congr_right fun _ => and_congr_right fun _ => ?_
  constructor
  · exact fun allowed membership => absurd (allowed _ membership) (by decide)
  · intro noLineFeed char membership
    have other : char ≠ '\n' := ne_of_mem_of_not_mem membership noLineFeed
    simp [allows, unquoted char membership, other]

theorem opens_requireCall_iff {segment : List Char} :
    Rule.requireCall.Opens segment ↔ "require(".toList <:+ segment := by
  constructor
  · rintro ⟨front, blanks, gap, rfl⟩
    obtain rfl : blanks = [] := gap
    exact ⟨front, by simp [keyword]⟩
  · rintro ⟨front, rfl⟩
    exact ⟨front, [], rfl, by simp [keyword]⟩

theorem candidate_importFrom_iff {cut : Cut} (proper : cut.Proper) {index : Nat} :
    Rule.importFrom.Candidate cut index ↔ 0 < index ∧ index < cut.size ∧
      (∃ front blanks, blanks ≠ [] ∧ (∀ char ∈ blanks, isBlank char = true) ∧
        cut.segment (index - 1) = front ++ ("from".toList ++ blanks)) ∧
      "./".toList <+: cut.segment index ∧ 2 < (cut.segment index).length ∧
      ';' ∉ cut.segment index ∧ '\n' ∉ cut.segment index := by
  cases index with
  | zero => simp [Candidate]
  | succ index =>
      have body := body_importFrom_iff (proper.unquoted_segment (index + 1))
      simp only [Candidate, body, Opens, Gap, closing, List.nil_prefix, and_true, and_assoc,
        Nat.add_sub_cancel, Nat.succ_pos, true_and]
      rfl

theorem candidate_requireCall_iff {cut : Cut} (proper : cut.Proper) {index : Nat} :
    Rule.requireCall.Candidate cut index ↔ 0 < index ∧ index < cut.size ∧
      "require(".toList <:+ cut.segment (index - 1) ∧
      "./".toList <+: cut.segment index ∧ 2 < (cut.segment index).length ∧
      '\n' ∉ cut.segment index ∧ ")".toList <+: cut.segment (index + 1) := by
  cases index with
  | zero => simp [Candidate]
  | succ index =>
      have body := body_requireCall_iff (proper.unquoted_segment (index + 1))
      simp only [Candidate, body, opens_requireCall_iff, and_assoc, Nat.add_sub_cancel,
        Nat.succ_pos, true_and]
      rfl

/-- What begins as a specifier does not begin as the end of a call. -/
theorem Body.not_closing_prefix {rule : Rule} {specifier : List Char} (body : rule.Body specifier) :
    ¬Rule.requireCall.closing <+: specifier := by
  obtain ⟨rest, _, _, rfl⟩ := body
  simp [closing, relativeStart]

/-- Of two neighbouring segments, one at most is the argument of a call. -/
theorem Candidate.not_succ {cut : Cut} {index : Nat}
    (candidate : Rule.requireCall.Candidate cut index) :
    ¬Rule.requireCall.Candidate cut (index + 1) := by
  intro following
  cases index with
  | zero => exact candidate
  | succ index => exact following.body.not_closing_prefix candidate.2.2.2

/-- No call is lost to another one. -/
theorem selected_requireCall_iff {cut : Cut} {index : Nat} :
    Rule.requireCall.Selected cut index ↔ Rule.requireCall.Candidate cut index := by
  constructor
  · exact Selected.candidate
  · intro candidate
    cases index with
    | zero => exact candidate
    | succ index => exact ⟨candidate, fun before => before.candidate.not_succ candidate⟩

/-- What an import rule does to a text with the segments `s₀`, …, `sₙ`.  A segment
between two quotes is a candidate if the one before ends in `from` and blanks, and
if it is a relative path without semicolon and line feed.  Candidates are selected
from left to right, unless the one before is.  The selected ones get the extension,
if they do not end in it. -/
theorem importFrom_extends_selected (extension text : List Char) :
    (∀ index, Rule.importFrom.Candidate (Cut.ofText text) index ↔
      0 < index ∧ index < (Cut.ofText text).size ∧
      (∃ front blanks, blanks ≠ [] ∧ (∀ char ∈ blanks, isBlank char = true) ∧
        (Cut.ofText text).segment (index - 1) = front ++ ("from".toList ++ blanks)) ∧
      "./".toList <+: (Cut.ofText text).segment index ∧
      2 < ((Cut.ofText text).segment index).length ∧
      ';' ∉ (Cut.ofText text).segment index ∧ '\n' ∉ (Cut.ofText text).segment index) ∧
    (∀ index, Rule.importFrom.Selected (Cut.ofText text) index ↔
      Rule.importFrom.Candidate (Cut.ofText text) index ∧
        ¬Rule.importFrom.Selected (Cut.ofText text) (index - 1)) ∧
    (Rule.importFrom.extend? extension text).getD text =
      ((Cut.ofText text).mapSegments fun index segment =>
        if Rule.importFrom.Selected (Cut.ofText text) index ∧ ¬extension <:+ segment then
          segment ++ extension
        else segment).text ∧
    (Rule.importFrom.extend? extension text = none ↔
      ∀ index, ¬Rule.importFrom.Selected (Cut.ofText text) index) := by
  refine ⟨fun index => ?_, fun index => selected_iff, ?_, extend?_eq_none_iff⟩
  · exact candidate_importFrom_iff (Cut.proper_ofText text)
  · exact extend?_getD_eq_mapSegments

/-- What a call rule does to a text with the segments `s₀`, …, `sₙ`.  It extends
every segment between two quotes that is a relative path without line feed, between
one that ends in `require(` and one that begins with `)`. -/
theorem requireCall_extends_candidates (extension text : List Char) :
    (∀ index, Rule.requireCall.Candidate (Cut.ofText text) index ↔
      0 < index ∧ index < (Cut.ofText text).size ∧
      "require(".toList <:+ (Cut.ofText text).segment (index - 1) ∧
      "./".toList <+: (Cut.ofText text).segment index ∧
      2 < ((Cut.ofText text).segment index).length ∧
      '\n' ∉ (Cut.ofText text).segment index ∧
      ")".toList <+: (Cut.ofText text).segment (index + 1)) ∧
    (∀ index, Rule.requireCall.Selected (Cut.ofText text) index ↔
      Rule.requireCall.Candidate (Cut.ofText text) index) ∧
    (Rule.requireCall.extend? extension text).getD text =
      ((Cut.ofText text).mapSegments fun index segment =>
        if Rule.requireCall.Candidate (Cut.ofText text) index ∧ ¬extension <:+ segment then
          segment ++ extension
        else segment).text ∧
    (Rule.requireCall.extend? extension text = none ↔
      ∀ index, ¬Rule.requireCall.Candidate (Cut.ofText text) index) := by
  refine ⟨fun index => ?_, fun index => selected_requireCall_iff, ?_, ?_⟩
  · exact candidate_requireCall_iff (Cut.proper_ofText text)
  · rw [extend?_getD_eq_mapSegments]
    simp only [selected_requireCall_iff]
  · rw [extend?_eq_none_iff]
    simp only [selected_requireCall_iff]

end Rule

end ImportSuffix.Specifier
