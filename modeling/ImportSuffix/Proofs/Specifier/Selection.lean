import ImportSuffix.Proofs.Specifier.Cut
import ImportSuffix.Specifier.Extender
import ImportSuffix.Specifier.Grammar

/-!
The specifiers of a form among the segments of a cut text.

A segment is a candidate if what stands around it is as the form demands.  Of
neighbouring candidates the search takes every other one, from the left, since the
head of the next one lies in the specifier of the one before.
-/

namespace ImportSuffix.Specifier

open Text

namespace Rule

/-- What may stand between the keyword of a form and its opening quote. -/
def Gap : Rule → List Char → Prop
  | importFrom, blanks => blanks ≠ [] ∧ ∀ char ∈ blanks, isBlank char = true
  | requireCall, blanks => blanks = []

/-- The segment ends in the head of the form, up to the quote. -/
def Opens (rule : Rule) (segment : List Char) : Prop :=
  ∃ front blanks, rule.Gap blanks ∧ segment = front ++ (rule.keyword ++ blanks)

/-- The segment of this number stands between two quotes, and the form demands
nothing else of it and its neighbours. -/
def Candidate (rule : Rule) (cut : Cut) : Nat → Prop
  | 0 => False
  | index + 1 =>
      index + 1 < cut.size ∧ rule.Opens (cut.segment index) ∧
        rule.Body (cut.segment (index + 1)) ∧ rule.closing <+: cut.segment (index + 2)

/-- The segment is a specifier that the search finds: a candidate whose head is
not part of a found specifier. -/
def Selected (rule : Rule) (cut : Cut) : Nat → Prop
  | 0 => False
  | index + 1 => rule.Candidate cut (index + 1) ∧ ¬rule.Selected cut index

instance (rule : Rule) (blanks : List Char) : Decidable (rule.Gap blanks) :=
  match rule with
  | importFrom => decidable_of_iff (blanks ≠ [] ∧ blanks.all isBlank = true)
      (and_congr_right fun _ => List.all_eq_true)
  | requireCall => inferInstanceAs (Decidable (blanks = []))

theorem opens_iff_drop {rule : Rule} {segment : List Char} :
    (∃ start ∈ List.range (segment.length + 1), rule.keyword <+: segment.drop start ∧
      rule.Gap (segment.drop (start + rule.keyword.length))) ↔ rule.Opens segment := by
  constructor
  · rintro ⟨start, _, ⟨blanks, found⟩, gap⟩
    refine ⟨segment.take start, blanks, ?_, ?_⟩
    · rw [← List.drop_drop, ← found, List.drop_left] at gap
      exact gap
    · rw [found, List.take_append_drop]
  · rintro ⟨front, blanks, gap, rfl⟩
    have inside : front.length < (front ++ (rule.keyword ++ blanks)).length + 1 := by
      simp only [List.length_append]
      omega
    refine ⟨front.length, List.mem_range.mpr inside, by simp, ?_⟩
    rw [← List.drop_drop, List.drop_left, List.drop_left]
    exact gap

instance (rule : Rule) (segment : List Char) : Decidable (rule.Opens segment) :=
  decidable_of_iff _ opens_iff_drop

/-- A segment that ends as a head of the form is one. -/
theorem Opens.of_suffix {rule : Rule} {segment ending : List Char} (opens : rule.Opens ending)
    (ends : ending <:+ segment) : rule.Opens segment := by
  obtain ⟨start, rfl⟩ := ends
  obtain ⟨front, blanks, gap, rfl⟩ := opens
  exact ⟨start ++ front, blanks, gap, (List.append_assoc _ _ _).symm⟩

theorem body_iff {rule : Rule} {specifier : List Char} :
    rule.Body specifier ↔ relativeStart <+: specifier ∧ 2 < specifier.length ∧
      ∀ char ∈ specifier, rule.allows char = true := by
  constructor
  · rintro ⟨rest, nonempty, allowed, rfl⟩
    have longer := List.length_pos_iff.mpr nonempty
    refine ⟨List.prefix_append _ _, ?_, ?_⟩
    · simp only [List.length_append, relativeStart, List.length_cons, List.length_nil]
      omega
    · intro char membership
      rcases List.mem_append.mp membership with inStart | inRest
      · simp only [relativeStart, List.mem_cons, List.not_mem_nil, or_false] at inStart
        rcases inStart with rfl | rfl <;> cases rule <;> rfl
      · exact allowed char inRest
  · rintro ⟨⟨rest, rfl⟩, longer, allowed⟩
    refine ⟨rest, ?_, fun char membership => allowed char (by simp [membership]), rfl⟩
    rintro rfl
    simp [relativeStart] at longer

theorem Body.lineFeed_not_mem {rule : Rule} {specifier : List Char} (body : rule.Body specifier) :
    '\n' ∉ specifier := by
  intro lineFeed
  have refused := (body_iff.mp body).2.2 '\n' lineFeed
  cases rule <;> cases refused

instance (rule : Rule) (specifier : List Char) : Decidable (rule.Body specifier) :=
  decidable_of_iff
    (relativeStart <+: specifier ∧ 2 < specifier.length ∧ specifier.all rule.allows = true)
    (by rw [List.all_eq_true, body_iff])

instance (rule : Rule) (cut : Cut) : DecidablePred (rule.Candidate cut)
  | 0 => inferInstanceAs (Decidable False)
  | index + 1 => inferInstanceAs (Decidable
      (index + 1 < cut.size ∧ rule.Opens (cut.segment index) ∧
        rule.Body (cut.segment (index + 1)) ∧ rule.closing <+: cut.segment (index + 2)))

instance decidableSelected (rule : Rule) (cut : Cut) : DecidablePred (rule.Selected cut)
  | 0 => inferInstanceAs (Decidable False)
  | index + 1 =>
      have := rule.decidableSelected cut index
      inferInstanceAs (Decidable (rule.Candidate cut (index + 1) ∧ ¬rule.Selected cut index))

theorem Selected.candidate {rule : Rule} {cut : Cut} {index : Nat}
    (selected : rule.Selected cut index) : rule.Candidate cut index := by
  cases index with
  | zero => exact selected
  | succ index => exact selected.1

theorem Candidate.lt_size {rule : Rule} {cut : Cut} {index : Nat}
    (candidate : rule.Candidate cut index) : index < cut.size := by
  cases index with
  | zero => exact False.elim candidate
  | succ index => exact candidate.1

theorem Candidate.body {rule : Rule} {cut : Cut} {index : Nat}
    (candidate : rule.Candidate cut index) : rule.Body (cut.segment index) := by
  cases index with
  | zero => exact False.elim candidate
  | succ index => exact candidate.2.2.1

/-- Behind a segment that is not selected, the selection begins anew. -/
theorem selected_add_iff {rule : Rule} {cut rest : Cut} {start : Nat}
    (unselected : ¬rule.Selected cut start)
    (candidates : ∀ index,
      rule.Candidate cut (start + (index + 1)) ↔ rule.Candidate rest (index + 1))
    (index : Nat) : rule.Selected cut (start + index) ↔ rule.Selected rest index := by
  induction index with
  | zero => exact iff_of_false unselected id
  | succ index inductionHypothesis =>
      exact and_congr (candidates index) (not_congr inductionHypothesis)

end Rule

/-- The cut with every specifier of the form extended. -/
def Cut.extend (rule : Rule) (extension : List Char) (cut : Cut) : Cut :=
  cut.mapSegments fun index segment =>
    if rule.Selected cut index then Specifier.extend extension segment else segment

end ImportSuffix.Specifier
