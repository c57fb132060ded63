import ImportSuffix.Proofs.Specifier.Segments

/-!
What extending specifiers does to the search.

An extension without quotes leaves a text cut at the same places.  If it holds
allowed characters only, every form is found again where it was, and extended
specifiers of calls are no part of an import.
-/

namespace ImportSuffix.Specifier

open Text

theorem extend_of_suffix {extension specifier : List Char} (ends : extension <:+ specifier) :
    extend extension specifier = specifier := by
  rw [Rule.extend_eq_append, if_neg (not_not_intro ends)]

theorem extend_eq_self_or_append (extension specifier : List Char) :
    extend extension specifier = specifier ∨
      extend extension specifier = specifier ++ extension := by
  by_cases ends : extension <:+ specifier
  · exact .inl (extend_of_suffix ends)
  · exact .inr (by rw [Rule.extend_eq_append, if_pos ends])

theorem Unquoted.extend {extension specifier : List Char} (unquoted : Unquoted extension)
    (unquotedSpecifier : Unquoted specifier) :
    Unquoted (Specifier.extend extension specifier) := by
  rcases extend_eq_self_or_append extension specifier with same | appended
  · rwa [same]
  · rw [appended]
    exact unquotedSpecifier.append unquoted

namespace Cut

@[simp] theorem size_extend (rule : Rule) (extension : List Char) (cut : Cut) :
    (cut.extend rule extension).size = cut.size := size_mapSegments _ _

@[simp] theorem quotes_extend (rule : Rule) (extension : List Char) (cut : Cut) :
    (cut.extend rule extension).quotes = cut.quotes := quotes_mapSegments _ _

theorem segment_extend (rule : Rule) (extension : List Char) (cut : Cut) (index : Nat) :
    (cut.extend rule extension).segment index =
      if rule.Selected cut index then Specifier.extend extension (cut.segment index)
      else cut.segment index := by
  rcases Nat.lt_or_ge cut.size index with behind | inside
  · have unselected : ¬rule.Selected cut index :=
      fun selected => Nat.lt_asymm behind selected.candidate.lt_size
    rw [if_neg unselected, segment_eq_nil_of_size_lt behind]
    exact segment_eq_nil_of_size_lt (by simpa using behind)
  · exact segment_mapSegments _ inside

theorem segment_extend_of_selected {rule : Rule} {cut : Cut} {index : Nat}
    (selected : rule.Selected cut index) (extension : List Char) :
    (cut.extend rule extension).segment index =
      Specifier.extend extension (cut.segment index) := by
  rw [segment_extend, if_pos selected]

theorem segment_extend_of_not_selected {rule : Rule} {cut : Cut} {index : Nat}
    (unselected : ¬rule.Selected cut index) (extension : List Char) :
    (cut.extend rule extension).segment index = cut.segment index := by
  rw [segment_extend, if_neg unselected]

theorem Proper.extend {cut : Cut} (proper : cut.Proper) (rule : Rule) {extension : List Char}
    (unquoted : Unquoted extension) : (cut.extend rule extension).Proper := by
  apply proper.mapSegments
  intro index segment unquotedSegment
  split
  · exact unquoted.extend unquotedSegment
  · exact unquotedSegment

theorem ofText_extend (rule : Rule) {extension : List Char} (unquoted : Unquoted extension)
    (text : List Char) :
    ofText (rule.extend extension text) = (ofText text).extend rule extension := by
  rw [Rule.extend_eq]
  exact ((proper_ofText text).extend rule unquoted).ofText_text

theorem extend_eq_self {rule : Rule} {extension : List Char} {cut : Cut}
    (extended : ∀ index, rule.Selected cut index → extension <:+ cut.segment index) :
    cut.extend rule extension = cut := by
  refine (mapSegments_congr ?_).trans cut.mapSegments_id
  intro index _
  split
  next selected => exact extend_of_suffix (extended index selected)
  next => rfl

end Cut

namespace Rule

theorem Body.extend {rule : Rule} {extension specifier : List Char} (body : rule.Body specifier)
    (allowed : ∀ char ∈ extension, rule.allows char = true) :
    rule.Body (Specifier.extend extension specifier) := by
  rcases extend_eq_self_or_append extension specifier with same | appended
  · rwa [same]
  · rw [appended]
    obtain ⟨rest, nonempty, allowedRest, rfl⟩ := body
    refine ⟨rest ++ extension, by simp [nonempty], ?_, List.append_assoc _ _ _⟩
    intro char membership
    rcases List.mem_append.mp membership with inRest | inExtension
    · exact allowedRest char inRest
    · exact allowed char inExtension

/-- Extending a specifier changes nothing about what closes another one. -/
theorem closing_prefix_extend_iff {rule other : Rule} {extension specifier : List Char}
    (body : other.Body specifier) :
    rule.closing <+: Specifier.extend extension specifier ↔ rule.closing <+: specifier := by
  cases rule with
  | importFrom => exact iff_of_true List.nil_prefix List.nil_prefix
  | requireCall =>
      apply iff_of_false _ body.not_closing_prefix
      obtain ⟨rest, _, _, rfl⟩ := body
      rcases extend_eq_self_or_append extension (relativeStart ++ rest) with same | appended
      · rw [same]
        simp [closing, relativeStart]
      · rw [appended]
        simp [closing, relativeStart]

theorem closing_prefix_segment_extend_iff {rule other : Rule} {extension : List Char} {cut : Cut}
    {index : Nat} :
    rule.closing <+: (cut.extend other extension).segment index ↔
      rule.closing <+: cut.segment index := by
  rw [Cut.segment_extend]
  split
  next selected => exact closing_prefix_extend_iff selected.candidate.body
  next => exact Iff.rfl

/-- Extending the specifiers of a form moves none of them. -/
theorem selected_extend_self_iff {rule : Rule} {extension : List Char}
    (allowed : ∀ char ∈ extension, rule.allows char = true) {cut : Cut} {index : Nat} :
    rule.Selected (cut.extend rule extension) index ↔ rule.Selected cut index := by
  induction index with
  | zero => exact Iff.rfl
  | succ index inductionHypothesis =>
      by_cases before : rule.Selected cut index
      · exact iff_of_false (fun both => both.2 (inductionHypothesis.mpr before))
          fun both => both.2 before
      · have body : rule.Body ((cut.extend rule extension).segment (index + 1)) ↔
            rule.Body (cut.segment (index + 1)) := by
          rw [Cut.segment_extend]
          split
          next selected =>
            exact iff_of_true (selected.candidate.body.extend allowed) selected.candidate.body
          next => exact Iff.rfl
        apply and_congr _ (not_congr inductionHypothesis)
        simp only [Candidate, Cut.size_extend, Cut.segment_extend_of_not_selected before, body,
          closing_prefix_segment_extend_iff]

/-- No segment ends in the heads of both forms. -/
theorem Opens.not_requireCall {segment : List Char} (opens : Rule.importFrom.Opens segment) :
    ¬Rule.requireCall.Opens segment := by
  obtain ⟨front, blanks, ⟨nonempty, members⟩, rfl⟩ := opens
  rintro ⟨other, gap, rfl, same⟩
  obtain ⟨before, blank, rfl⟩ := List.eq_nil_or_concat blanks |>.resolve_left nonempty
  have last := congrArg List.getLast? same
  rw [List.concat_eq_append, ← List.append_assoc, ← List.append_assoc,
    List.getLast?_concat] at last
  have parenthesis : blank = '(' := by simpa [keyword] using last
  have isBlank := members blank (by simp)
  rw [parenthesis] at isBlank
  cases isBlank

theorem Selected.not_requireCall {cut : Cut} {index : Nat}
    (selected : Rule.importFrom.Selected cut index) : ¬Rule.requireCall.Selected cut index := by
  intro other
  cases index with
  | zero => exact selected
  | succ index => exact selected.1.2.1.not_requireCall other.1.2.1

/-- Extending the arguments of calls moves no import. -/
theorem candidate_importFrom_extend_iff {extension : List Char} {cut : Cut} {index : Nat} :
    Rule.importFrom.Candidate (cut.extend .requireCall extension) index ↔
      Rule.importFrom.Candidate cut index := by
  cases index with
  | zero => exact Iff.rfl
  | succ index =>
      by_cases before : Rule.requireCall.Selected cut index
      · -- The segment behind an argument begins with a parenthesis.
        have unselected : ¬Rule.requireCall.Selected cut (index + 1) := fun both => both.2 before
        have closed : Rule.requireCall.closing <+: cut.segment (index + 1) := by
          cases index with
          | zero => exact False.elim before
          | succ index => exact before.1.2.2.2
        have segment := Cut.segment_extend_of_not_selected unselected extension
        apply iff_of_false
        · intro candidate
          exact candidate.body.not_closing_prefix (segment ▸ closed)
        · exact fun candidate => candidate.body.not_closing_prefix closed
      · have front := Cut.segment_extend_of_not_selected before extension
        by_cases here : Rule.requireCall.Selected cut (index + 1)
        · apply iff_of_false
          · intro candidate
            exact (front ▸ candidate.2.1).not_requireCall here.1.2.1
          · exact fun candidate => candidate.2.1.not_requireCall here.1.2.1
        · have segment := Cut.segment_extend_of_not_selected here extension
          simp only [Candidate, Cut.size_extend, front, segment, closing_prefix_segment_extend_iff]

theorem selected_importFrom_extend_iff {extension : List Char} {cut : Cut} {index : Nat} :
    Rule.importFrom.Selected (cut.extend .requireCall extension) index ↔
      Rule.importFrom.Selected cut index := by
  induction index with
  | zero => exact Iff.rfl
  | succ index inductionHypothesis =>
      exact and_congr candidate_importFrom_extend_iff (not_congr inductionHypothesis)

end Rule

end ImportSuffix.Specifier
