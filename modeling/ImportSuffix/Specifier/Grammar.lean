import ImportSuffix.Specifier.Search

/-!
Reading a form at the beginning of a text finds exactly what the grammar of the
form describes, so there is at most one way to read it.
-/

namespace ImportSuffix.Specifier

open Text

theorem readWhile?_eq_some_iff {member : Char → Bool} {text taken rest : List Char} :
    readWhile? member text = some (taken, rest) ↔
      text = taken ++ rest ∧ taken ≠ [] ∧ (∀ char ∈ taken, member char = true) ∧
        ∀ char ∈ rest.head?, member char = false := by
  constructor
  · intro found
    have whole := readWhile?_eq_some found
    unfold readWhile? at found
    split at found
    · cases found
    · next nonempty =>
      simp only [Option.some.injEq, Prod.mk.injEq] at found
      obtain ⟨rfl, rfl⟩ := found
      refine ⟨whole, nonempty, fun char inTaken => ?_, fun char isHead => ?_⟩
      · exact List.all_eq_true.mp List.all_takeWhile char inTaken
      · have stops := List.head?_dropWhile_not member text
        rw [Option.mem_def.mp isHead] at stops
        simpa using stops
  · rintro ⟨rfl, nonempty, members, ends⟩
    have taking : (taken ++ rest).takeWhile member = taken := by
      rw [List.takeWhile_append_of_pos members]
      cases rest with
      | nil => simp
      | cons char rest => simp [ends char (by simp)]
    have dropping : (taken ++ rest).dropWhile member = rest := by
      rw [List.dropWhile_append_of_pos members]
      cases rest with
      | nil => simp
      | cons char rest => simp [ends char (by simp)]
    unfold readWhile?
    rw [taking, dropping]
    cases taken with
    | nil => exact absurd rfl nonempty
    | cons char taken => rfl

theorem readQuote?_eq_some_iff {text rest : List Char} {quote : Char} :
    readQuote? text = some (quote, rest) ↔ text = quote :: rest ∧ isQuote quote = true := by
  cases text with
  | nil => simp [readQuote?]
  | cons char tail =>
      simp only [readQuote?, Option.ite_none_right_eq_some, Option.some.injEq,
        Prod.mk.injEq, List.cons.injEq]
      constructor
      · rintro ⟨quoted, rfl, rfl⟩
        exact ⟨⟨rfl, rfl⟩, quoted⟩
      · rintro ⟨⟨rfl, rfl⟩, quoted⟩
        exact ⟨quoted, rfl, rfl⟩

theorem isBlank_eq_false_of_isQuote {char : Char} (quoted : isQuote char = true) :
    isBlank char = false := by
  simp only [isQuote, Bool.or_eq_true, beq_iff_eq] at quoted
  rcases quoted with rfl | rfl <;> decide

namespace Rule

theorem allows_eq_false_of_isQuote (rule : Rule) {char : Char} (quoted : isQuote char = true) :
    rule.allows char = false := by
  cases rule <;> simp [allows, quoted]

theorem readHead?_eq_some_iff {rule : Rule} {text head rest : List Char} :
    rule.readHead? text = some (head, rest) ↔ text = head ++ rest ∧ rule.Head head := by
  constructor
  · intro found
    refine ⟨readHead?_eq_some found, ?_⟩
    simp only [readHead?, Option.bind_eq_bind, Option.bind_eq_some_iff, Prod.exists,
      Option.pure_def, Option.some.injEq, Prod.mk.injEq] at found
    obtain ⟨_, _, _, _, blanks, _, _, quote, rfl, rfl⟩ := found
    have quoted := (readQuote?_eq_some_iff.mp quote).2
    cases rule with
    | importFrom =>
        obtain ⟨_, nonempty, members, _⟩ := readWhile?_eq_some_iff.mp blanks
        exact .importFrom nonempty members quoted
    | requireCall =>
        cases blanks
        exact .requireCall quoted
  · rintro ⟨rfl, grammatical⟩
    cases grammatical with
    | @importFrom blanks quote nonempty members quoted =>
        have spaces : readWhile? isBlank (blanks ++ quote :: rest) =
            some (blanks, quote :: rest) :=
          readWhile?_eq_some_iff.mpr ⟨rfl, nonempty, members, by
            simpa using isBlank_eq_false_of_isQuote quoted⟩
        have closed : readQuote? (quote :: rest) = some (quote, rest) :=
          readQuote?_eq_some_iff.mpr ⟨rfl, quoted⟩
        simp [readHead?, readBlanks?, spaces, closed]
    | @requireCall quote quoted =>
        have closed : readQuote? (quote :: rest) = some (quote, rest) :=
          readQuote?_eq_some_iff.mpr ⟨rfl, quoted⟩
        simp [readHead?, readBlanks?, closed]

/-- A specifier is read as far as characters are allowed. -/
theorem readSpecifier?_eq_some_iff {rule : Rule} {text specifier rest : List Char} :
    rule.readSpecifier? text = some (specifier, rest) ↔
      text = specifier ++ rest ∧ rule.Body specifier ∧
        ∀ char ∈ rest.head?, rule.allows char = false := by
  constructor
  · intro found
    refine ⟨readSpecifier?_eq_some found, ?_⟩
    simp only [readSpecifier?, Option.bind_eq_bind, Option.bind_eq_some_iff, Prod.exists,
      Option.pure_def, Option.some.injEq, Prod.mk.injEq] at found
    obtain ⟨_, _, body, _, read, rfl, rfl⟩ := found
    obtain ⟨_, nonempty, members, ends⟩ := readWhile?_eq_some_iff.mp read
    exact ⟨⟨body, nonempty, members, rfl⟩, ends⟩
  · rintro ⟨rfl, ⟨body, nonempty, members, rfl⟩, ends⟩
    have read : readWhile? rule.allows (body ++ rest) = some (body, rest) :=
      readWhile?_eq_some_iff.mpr ⟨rfl, nonempty, members, ends⟩
    simp [readSpecifier?, read]

theorem readTail?_eq_some_iff {rule : Rule} {text tail rest : List Char} :
    rule.readTail? text = some (tail, rest) ↔ text = tail ++ rest ∧ rule.Tail tail := by
  constructor
  · intro found
    refine ⟨readTail?_eq_some found, ?_⟩
    simp only [readTail?, Option.bind_eq_bind, Option.bind_eq_some_iff, Prod.exists,
      Option.pure_def, Option.some.injEq, Prod.mk.injEq] at found
    obtain ⟨quote, _, read, _, _, rfl, _⟩ := found
    exact ⟨quote, (readQuote?_eq_some_iff.mp read).2, rfl⟩
  · rintro ⟨rfl, quote, quoted, rfl⟩
    have read : readQuote? (quote :: (rule.closing ++ rest)) =
        some (quote, rule.closing ++ rest) :=
      readQuote?_eq_some_iff.mpr ⟨rfl, quoted⟩
    simp [readTail?, read]

/-- The form is read exactly where the text begins with a reading of it. -/
theorem readAt?_eq_some_iff {rule : Rule} {text rest : List Char} {reading : Reading} :
    rule.readAt? text = some (reading, rest) ↔
      text = reading.text ++ rest ∧ rule.Reads reading := by
  constructor
  · intro found
    refine ⟨readAt?_eq_some found, ?_⟩
    simp only [readAt?, Option.bind_eq_bind, Option.bind_eq_some_iff, Prod.exists,
      Option.pure_def, Option.some.injEq, Prod.mk.injEq] at found
    obtain ⟨_, _, head, _, _, specifier, _, _, tail, rfl, rfl⟩ := found
    exact ⟨(readHead?_eq_some_iff.mp head).2, (readSpecifier?_eq_some_iff.mp specifier).2.1,
      (readTail?_eq_some_iff.mp tail).2⟩
  · rintro ⟨rfl, grammatical⟩
    obtain ⟨head, specifier, tail⟩ := reading
    obtain ⟨quote, quoted, ends⟩ := grammatical.tail
    have readHead : rule.readHead? (head ++ (specifier ++ (tail ++ rest))) =
        some (head, specifier ++ (tail ++ rest)) :=
      readHead?_eq_some_iff.mpr ⟨rfl, grammatical.head⟩
    have readSpecifier : rule.readSpecifier? (specifier ++ (tail ++ rest)) =
        some (specifier, tail ++ rest) :=
      readSpecifier?_eq_some_iff.mpr ⟨rfl, grammatical.specifier, by
        simp only at ends
        simpa [ends] using rule.allows_eq_false_of_isQuote quoted⟩
    have readTail : rule.readTail? (tail ++ rest) = some (tail, rest) :=
      readTail?_eq_some_iff.mpr ⟨rfl, grammatical.tail⟩
    simp [readAt?, Reading.text, readHead, readSpecifier, readTail]

end Rule

end ImportSuffix.Specifier
