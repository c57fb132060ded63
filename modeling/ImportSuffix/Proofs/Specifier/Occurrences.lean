import ImportSuffix.Proofs.Specifier.Selection

/-!
The search finds the selected segments.

A form is read over a quote only, namely the first one behind the place where the
reading starts.  So the search goes through a text from quote to quote: at each it
either reads the form from the end of the segment before, or goes on behind it.
-/

namespace ImportSuffix.Specifier

open Text

namespace Rule

theorem pieces_of_readAt? {rule : Rule} {text behind : List Char} {reading : Reading}
    (found : rule.readAt? text = some (reading, behind)) :
    rule.pieces text = .found reading :: rule.pieces behind := by
  cases text with
  | nil => simpa using length_lt_of_readAt? found
  | cons char rest =>
      rw [pieces]
      split
      next other otherBehind otherFound =>
        rw [found] at otherFound
        cases otherFound
        rfl
      next missed =>
        rw [found] at missed
        cases missed

theorem pieces_cons_of_readAt?_eq_none {rule : Rule} {char : Char} {rest : List Char}
    (missed : rule.readAt? (char :: rest) = none) :
    rule.pieces (char :: rest) = .plain char :: rule.pieces rest := by
  rw [pieces]
  split
  next reading behind found =>
    rw [missed] at found
    cases found
  next => rfl

/-- What the search finds is a reading of the form. -/
theorem reads_of_mem_pieces {rule : Rule} {text : List Char} {reading : Reading}
    (membership : .found reading ∈ rule.pieces text) : rule.Reads reading := by
  fun_induction pieces rule text with
  | case1 => cases membership
  | case2 char rest first behind found inductionHypothesis =>
      rcases List.mem_cons.mp membership with same | later
      · cases same
        exact (readAt?_eq_some_iff.mp found).2
      · exact inductionHypothesis later
  | case3 char rest _ inductionHypothesis =>
      rcases List.mem_cons.mp membership with same | later
      · cases same
      · exact inductionHypothesis later

theorem mem_readings_iff {rule : Rule} {text : List Char} {reading : Reading} :
    reading ∈ rule.readings text ↔ .found reading ∈ rule.pieces text := by
  simp only [readings, List.mem_filterMap]
  constructor
  · rintro ⟨piece, membership, isReading⟩
    cases piece <;> cases isReading
    exact membership
  · exact fun membership => ⟨_, membership, rfl⟩

/-- The search keeps everything in front of which no reading starts. -/
theorem pieces_append_of_readAt?_eq_none {rule : Rule} {front rest : List Char}
    (missed : ∀ back, back ≠ [] → back <:+ front → rule.readAt? (back ++ rest) = none) :
    rule.pieces (front ++ rest) = front.map Piece.plain ++ rule.pieces rest := by
  induction front with
  | nil => rfl
  | cons char front inductionHypothesis =>
      have here : rule.readAt? (char :: (front ++ rest)) = none :=
        missed (char :: front) (List.cons_ne_nil _ _) (List.suffix_refl _)
      have others := inductionHypothesis fun back nonempty inFront =>
        missed back nonempty (inFront.trans (List.suffix_cons _ _))
      rw [List.cons_append, pieces_cons_of_readAt?_eq_none here, others]
      rfl

theorem unquoted_keyword (rule : Rule) : Unquoted rule.keyword := by
  cases rule <;> simp [Unquoted, keyword, isQuote]

theorem Gap.unquoted {rule : Rule} {blanks : List Char} (gap : rule.Gap blanks) :
    Unquoted blanks := by
  cases rule with
  | importFrom =>
      intro char membership
      cases quoted : isQuote char with
      | false => rfl
      | true =>
          have blank := gap.2 char membership
          rw [isBlank_eq_false_of_isQuote quoted] at blank
          cases blank
  | requireCall =>
      obtain rfl : blanks = [] := gap
      simp [Unquoted]

theorem unquoted_of_allows {rule : Rule} {text : List Char}
    (allowed : ∀ char ∈ text, rule.allows char = true) : Unquoted text := by
  intro char membership
  cases quoted : isQuote char with
  | false => rfl
  | true =>
      have inside := allowed char membership
      rw [rule.allows_eq_false_of_isQuote quoted] at inside
      cases inside

theorem Body.unquoted {rule : Rule} {specifier : List Char} (body : rule.Body specifier) :
    Unquoted specifier :=
  unquoted_of_allows (body_iff.mp body).2.2

theorem head_iff {rule : Rule} {head : List Char} :
    rule.Head head ↔ ∃ blanks quote, rule.Gap blanks ∧ isQuote quote = true ∧
      head = rule.keyword ++ blanks ++ [quote] := by
  constructor
  · intro grammatical
    cases grammatical with
    | @importFrom blanks quote nonempty members quoted =>
        exact ⟨blanks, quote, ⟨nonempty, members⟩, quoted, rfl⟩
    | @requireCall quote quoted => exact ⟨[], quote, rfl, quoted, by simp⟩
  · rintro ⟨blanks, quote, gap, quoted, rfl⟩
    cases rule with
    | importFrom => exact .importFrom gap.1 gap.2 quoted
    | requireCall =>
        obtain rfl : blanks = [] := gap
        simpa using Head.requireCall quoted

/-- Where no quote comes before, the form can be read only over the next one. -/
theorem readAt?_unquoted_iff {rule : Rule} {front rest behind : List Char} {quote : Char}
    {reading : Reading} (unquoted : Unquoted front) (quoted : isQuote quote = true) :
    rule.readAt? (front ++ quote :: rest) = some (reading, behind) ↔
      (∃ blanks, rule.Gap blanks ∧ front = rule.keyword ++ blanks) ∧
        reading.head = front ++ [quote] ∧ rule.Body reading.specifier ∧
        rule.Tail reading.tail ∧ rest = reading.specifier ++ reading.tail ++ behind := by
  rw [readAt?_eq_some_iff]
  constructor
  · rintro ⟨whole, head, body, tail⟩
    obtain ⟨blanks, opening, gap, quotedOpening, headText⟩ := head_iff.mp head
    have lead := rule.unquoted_keyword.append gap.unquoted
    have same : front ++ quote :: rest = (rule.keyword ++ blanks) ++
        opening :: (reading.specifier ++ reading.tail ++ behind) := by
      simpa [Reading.text, headText] using whole
    obtain ⟨rfl, rfl, rfl⟩ := unquoted.split_inj lead quoted quotedOpening same
    exact ⟨⟨blanks, gap, rfl⟩, headText, body, tail, rfl⟩
  · rintro ⟨⟨blanks, gap, rfl⟩, headText, body, tail, rfl⟩
    refine ⟨by simp [Reading.text, headText], ?_, body, tail⟩
    exact head_iff.mpr ⟨blanks, quote, gap, quoted, headText⟩

theorem readAt?_eq_none_of_unquoted {rule : Rule} {text : List Char} (unquoted : Unquoted text) :
    rule.readAt? text = none := by
  cases read : rule.readAt? text with
  | none => rfl
  | some result =>
      obtain ⟨reading, behind⟩ := result
      obtain ⟨rfl, head, _, _⟩ := readAt?_eq_some_iff.mp read
      obtain ⟨blanks, quote, _, quoted, headText⟩ := head_iff.mp head
      have inside := unquoted quote (by simp [Reading.text, headText])
      rw [quoted] at inside
      cases inside

/-- A segment ends in at most one head of the form. -/
theorem Gap.front_inj {rule : Rule} {first second firstBlanks secondBlanks : List Char}
    (gapFirst : rule.Gap firstBlanks) (gapSecond : rule.Gap secondBlanks)
    (same : first ++ (rule.keyword ++ firstBlanks) = second ++ (rule.keyword ++ secondBlanks)) :
    first = second := by
  cases rule with
  | importFrom =>
      -- Read backwards, the blanks end at the last character of the keyword.
      have reversed := congrArg List.reverse same
      simp only [keyword, List.reverse_append, List.append_assoc, List.reverse_cons,
        List.nil_append, List.cons_append] at reversed
      have split := append_cons_inj_of_all isBlank
        (by simpa using gapFirst.2) (by simpa using gapSecond.2) (by decide) (by decide) reversed
      simpa using split.2.2
  | requireCall =>
      obtain rfl : firstBlanks = [] := gapFirst
      obtain rfl : secondBlanks = [] := gapSecond
      exact List.append_cancel_right same

/-- The search reads the form from the end of a segment, if it can be read there. -/
theorem pieces_of_opens {rule : Rule} {front blanks specifier tail : List Char} {quote : Char}
    (unquoted : Unquoted front) (gap : rule.Gap blanks) (quoted : isQuote quote = true)
    (body : rule.Body specifier) (closed : rule.Tail tail) (behind : List Char) :
    rule.pieces (front ++ (rule.keyword ++ blanks) ++ quote :: (specifier ++ tail ++ behind)) =
      front.map Piece.plain ++
        .found ⟨rule.keyword ++ blanks ++ [quote], specifier, tail⟩ :: rule.pieces behind := by
  have lead := rule.unquoted_keyword.append gap.unquoted
  have read : rule.readAt? ((rule.keyword ++ blanks) ++ quote :: (specifier ++ tail ++ behind)) =
      some (⟨rule.keyword ++ blanks ++ [quote], specifier, tail⟩, behind) :=
    (readAt?_unquoted_iff lead quoted).mpr ⟨⟨blanks, gap, rfl⟩, rfl, body, closed, rfl⟩
  rw [List.append_assoc front, pieces_append_of_readAt?_eq_none, pieces_of_readAt? read]
  rintro back nonempty ⟨before, rfl⟩
  cases earlier : rule.readAt?
      (back ++ ((rule.keyword ++ blanks) ++ quote :: (specifier ++ tail ++ behind))) with
  | none => rfl
  | some result =>
      obtain ⟨reading, otherBehind⟩ := result
      have unquotedBack : Unquoted back := fun char membership => unquoted char (by simp [membership])
      rw [← List.append_assoc, readAt?_unquoted_iff (unquotedBack.append lead) quoted] at earlier
      obtain ⟨⟨otherBlanks, otherGap, sameLead⟩, _⟩ := earlier
      have empty : back = [] := gap.front_inj otherGap sameLead
      exact absurd empty nonempty

/-- The search goes on behind a quote over which the form cannot be read. -/
theorem pieces_of_not_opens {rule : Rule} {segment rest : List Char} {quote : Char}
    (unquoted : Unquoted segment) (quoted : isQuote quote = true)
    (unread : rule.Opens segment → ∀ specifier tail behind,
      rule.Body specifier → rule.Tail tail → rest ≠ specifier ++ tail ++ behind) :
    rule.pieces (segment ++ quote :: rest) =
      segment.map Piece.plain ++ .plain quote :: rule.pieces rest := by
  have missed : ∀ back, back <:+ segment → rule.readAt? (back ++ quote :: rest) = none := by
    rintro back ⟨before, rfl⟩
    cases read : rule.readAt? (back ++ quote :: rest) with
    | none => rfl
    | some result =>
        obtain ⟨reading, behind⟩ := result
        have unquotedBack : Unquoted back :=
          fun char membership => unquoted char (by simp [membership])
        obtain ⟨⟨blanks, gap, rfl⟩, _, body, tail, whole⟩ :=
          (readAt?_unquoted_iff unquotedBack quoted).mp read
        exact absurd whole (unread ⟨before, blanks, gap, rfl⟩ _ _ _ body tail)
  rw [pieces_append_of_readAt?_eq_none fun back _ inside => missed back inside,
    pieces_cons_of_readAt?_eq_none (missed [] (List.nil_suffix))]

/-- No reading starts in the closing characters of a form. -/
theorem pieces_closing_append (rule : Rule) (rest : List Char) :
    rule.pieces (rule.closing ++ rest) = rule.closing.map Piece.plain ++ rule.pieces rest := by
  cases rule with
  | importFrom => rfl
  | requireCall =>
      apply pieces_cons_of_readAt?_eq_none
      simp [readAt?, readHead?, after?, keyword]

theorem closing_prefix_segment_zero {rule : Rule} {cut : Cut} (proper : cut.Proper)
    (closed : rule.closing <+: cut.text) : rule.closing <+: cut.segment 0 := by
  cases rule with
  | importFrom => exact List.nil_prefix
  | requireCall =>
      obtain ⟨behind, whole⟩ := closed
      cases proper with
      | last => exact ⟨behind, whole⟩
      | @next segment quote rest _ quoted _ =>
          cases segment with
          | nil =>
              simp only [closing, Cut.text, List.cons_append, List.nil_append,
                List.cons.injEq] at whole
              rw [← whole.1] at quoted
              cases quoted
          | cons char segment =>
              simp only [closing, Cut.text, List.cons_append, List.nil_append,
                List.cons.injEq] at whole
              obtain ⟨rfl, _⟩ := whole
              exact ⟨segment, rfl⟩

theorem closing_prefix_text {rule : Rule} {cut : Cut} (closed : rule.closing <+: cut.segment 0) :
    rule.closing <+: cut.text := by
  cases cut with
  | last => exact closed
  | next => exact closed.trans (List.prefix_append _ _)

section

variable {rule : Rule} {segment specifier : List Char} {quote close : Char} {rest after : Cut}

/-- The form is read from the end of the first segment, up to its closing characters. -/
theorem pieces_of_gap {front blanks behind : List Char} (gap : rule.Gap blanks)
    (proper :
      (Cut.next (front ++ (rule.keyword ++ blanks)) quote (.next specifier close after)).Proper)
    (body : rule.Body specifier) (closed : after.text = rule.closing ++ behind) :
    rule.pieces
        (Cut.next (front ++ (rule.keyword ++ blanks)) quote (.next specifier close after)).text =
      front.map Piece.plain ++
        .found ⟨rule.keyword ++ blanks ++ [quote], specifier, close :: rule.closing⟩ ::
          rule.pieces behind := by
  cases proper with
  | next unquoted quoted properRest =>
      cases properRest with
      | next _ quotedClose _ =>
          have unquotedFront : Unquoted front :=
            fun char membership => unquoted char (by simp [membership])
          have tail : rule.Tail (close :: rule.closing) := ⟨close, quotedClose, rfl⟩
          have read := pieces_of_opens unquotedFront gap quoted body tail behind
          simpa [Cut.text, closed] using read

/-- A candidate behind the first segment is read from there. -/
theorem pieces_of_candidate (proper : (Cut.next segment quote (.next specifier close after)).Proper)
    (candidate : rule.Candidate (.next segment quote (.next specifier close after)) 1) :
    ∃ front blanks behind, segment = front ++ (rule.keyword ++ blanks) ∧
      after.text = rule.closing ++ behind ∧
      rule.pieces (Cut.next segment quote (.next specifier close after)).text =
        front.map Piece.plain ++
          .found ⟨rule.keyword ++ blanks ++ [quote], specifier, close :: rule.closing⟩ ::
            rule.pieces behind := by
  obtain ⟨_, ⟨front, blanks, gap, rfl⟩, body, closed⟩ := candidate
  obtain ⟨behind, whole⟩ := closing_prefix_text closed
  exact ⟨front, blanks, behind, rfl, whole.symm, pieces_of_gap gap proper body whole.symm⟩

/-- Without a candidate behind the first segment, nothing is read from there. -/
theorem pieces_of_not_candidate (proper : (Cut.next segment quote rest).Proper)
    (uncalled : ¬rule.Candidate (.next segment quote rest) 1) :
    rule.pieces (Cut.next segment quote rest).text =
      segment.map Piece.plain ++ .plain quote :: rule.pieces rest.text := by
  cases proper with
  | next unquoted quoted properRest =>
      apply pieces_of_not_opens unquoted quoted
      rintro opens specifier _ behind body ⟨close, quotedClose, rfl⟩ whole
      apply uncalled
      have same : rest.text = specifier ++ close :: (rule.closing ++ behind) := by
        simpa using whole
      cases properRest with
      | last unquotedRest =>
          simp only [Cut.text] at same
          subst same
          have inside := unquotedRest close (by simp)
          rw [quotedClose] at inside
          cases inside
      | next unquotedRest quotedRest properAfter =>
          obtain ⟨rfl, rfl, sameAfter⟩ :=
            unquotedRest.split_inj body.unquoted quotedRest quotedClose same
          refine ⟨by simp, opens, body, ?_⟩
          exact closing_prefix_segment_zero properAfter ⟨behind, sameAfter.symm⟩

/-- The selection behind a segment in which no found specifier begins. -/
theorem selected_next_iff (uncalled : ¬rule.Candidate (.next segment quote rest) 1) (index : Nat) :
    rule.Selected (.next segment quote rest) (index + 1) ↔ rule.Selected rest index := by
  rw [Nat.add_comm index 1]
  apply selected_add_iff
  · exact fun selected => uncalled selected.candidate
  · intro index
    rw [Nat.add_comm 1]
    simp [Candidate]

theorem selected_next_next_iff
    (candidate : rule.Candidate (.next segment quote (.next specifier close after)) 1)
    (index : Nat) :
    rule.Selected (.next segment quote (.next specifier close after)) (index + 2) ↔
      rule.Selected after index := by
  have first : rule.Selected (.next segment quote (.next specifier close after)) 1 :=
    ⟨candidate, id⟩
  rw [Nat.add_comm index 2]
  apply selected_add_iff
  · exact fun second => second.2 first
  · intro index
    rw [Nat.add_comm 2]
    refine and_congr_left fun _ => ?_
    simp only [Cut.size_next]
    omega

theorem extend_next (uncalled : ¬rule.Candidate (.next segment quote rest) 1)
    (extension : List Char) :
    (Cut.next segment quote rest).extend rule extension =
      .next segment quote (rest.extend rule extension) := by
  have others : rest.mapSegments (fun index text =>
      if rule.Selected (.next segment quote rest) (index + 1) then
        Specifier.extend extension text
      else text) = rest.extend rule extension := by
    apply Cut.mapSegments_congr
    intro index _
    simp only [selected_next_iff uncalled]
  rw [Cut.extend, Cut.mapSegments, others]
  rfl

theorem extend_next_next
    (candidate : rule.Candidate (.next segment quote (.next specifier close after)) 1)
    (extension : List Char) :
    (Cut.next segment quote (.next specifier close after)).extend rule extension =
      .next segment quote
        (.next (Specifier.extend extension specifier) close (after.extend rule extension)) := by
  have others : after.mapSegments (fun index text =>
      if rule.Selected (.next segment quote (.next specifier close after)) (index + 2) then
        Specifier.extend extension text
      else text) = after.extend rule extension := by
    apply Cut.mapSegments_congr
    intro index _
    simp only [selected_next_next_iff candidate]
  have first : rule.Selected (.next segment quote (.next specifier close after)) 1 :=
    ⟨candidate, id⟩
  rw [Cut.extend, Cut.mapSegments, Cut.mapSegments, others, if_pos first]
  rfl

end

/-- A cut as the search goes through it, from quote to quote. -/
inductive Searched (rule : Rule) : Cut → Prop where
  | last {segment} : Unquoted segment → Searched rule (.last segment)
  /-- The form is read over the first quote, up to the end of the second segment. -/
  | found {segment quote specifier close after} :
      rule.Candidate (.next segment quote (.next specifier close after)) 1 →
      Searched rule after → Searched rule (.next segment quote (.next specifier close after))
  /-- The form cannot be read over the first quote. -/
  | passed {segment quote rest} :
      ¬rule.Candidate (.next segment quote rest) 1 →
      Searched rule rest → Searched rule (.next segment quote rest)

theorem searched (rule : Rule) {cut : Cut} (proper : cut.Proper) : rule.Searched cut := by
  induction size : cut.size using Nat.strongRecOn generalizing cut with
  | ind bound inductionHypothesis =>
      cases proper with
      | last unquoted => exact .last unquoted
      | @next segment quote rest _ _ properRest =>
          by_cases candidate : rule.Candidate (.next segment quote rest) 1
          · cases properRest with
            | last => exact absurd candidate.lt_size (Nat.lt_irrefl 1)
            | next _ _ properAfter =>
                apply Searched.found candidate
                apply inductionHypothesis _ _ properAfter rfl
                simp only [← size, Cut.size_next]
                omega
          · apply Searched.passed candidate
            apply inductionHypothesis _ _ properRest rfl
            simp [← size]

@[simp] theorem flatMap_extend_map_plain (extension text : List Char) :
    (text.map Piece.plain).flatMap (Piece.extend extension) = text := by
  induction text with
  | nil => rfl
  | cons char rest inductionHypothesis => simp [Piece.extend, inductionHypothesis]

@[simp] theorem filterMap_reading?_map_plain (text : List Char) :
    (text.map Piece.plain).filterMap Piece.reading? = [] := by
  induction text with
  | nil => rfl
  | cons char rest inductionHypothesis => simp [Piece.reading?]

theorem pieces_of_unquoted {rule : Rule} {text : List Char} (unquoted : Unquoted text) :
    rule.pieces text = text.map Piece.plain := by
  have whole : rule.pieces (text ++ []) = text.map Piece.plain ++ rule.pieces [] := by
    apply pieces_append_of_readAt?_eq_none
    intro back _ inside
    apply readAt?_eq_none_of_unquoted
    intro char membership
    exact unquoted char (inside.subset (by simpa using membership))
  simpa [pieces] using whole

theorem extend_text (rule : Rule) (extension : List Char) {cut : Cut} (proper : cut.Proper) :
    rule.extend extension cut.text = (cut.extend rule extension).text := by
  induction rule.searched proper with
  | last unquoted =>
      rw [Rule.extend, Cut.text, pieces_of_unquoted unquoted, flatMap_extend_map_plain]
      rfl
  | found candidate _ inductionHypothesis =>
      obtain ⟨front, blanks, behind, rfl, afterText, read⟩ := pieces_of_candidate proper candidate
      have others := inductionHypothesis proper.rest.rest
      rw [afterText, Rule.extend, pieces_closing_append, List.flatMap_append,
        flatMap_extend_map_plain] at others
      rw [Rule.extend, read, extend_next_next candidate]
      simp [Piece.extend, Reading.extend, Reading.text, Cut.text, ← others]
  | passed uncalled _ inductionHypothesis =>
      have others := inductionHypothesis proper.rest
      rw [Rule.extend, pieces_of_not_candidate proper uncalled, extend_next uncalled]
      simp [Piece.extend, Cut.text, ← others, Rule.extend]

/-- The specifiers that are read in a text are the selected segments of its cut. -/
theorem exists_reading_text_iff (rule : Rule) {cut : Cut} (proper : cut.Proper)
    (specifier : List Char) :
    (∃ reading ∈ rule.readings cut.text, reading.specifier = specifier) ↔
      ∃ index, rule.Selected cut index ∧ cut.segment index = specifier := by
  induction rule.searched proper with
  | @last segment unquoted =>
      have unread : rule.readings (Cut.last segment).text = [] := by
        rw [readings, Cut.text, pieces_of_unquoted unquoted, filterMap_reading?_map_plain]
      rw [unread]
      constructor
      · rintro ⟨reading, membership, _⟩
        cases membership
      · rintro ⟨index, selected, _⟩
        exact absurd selected.candidate.lt_size (Nat.not_lt_zero index)
  | @found segment quote first close after candidate _ inductionHypothesis =>
      obtain ⟨front, blanks, behind, rfl, afterText, read⟩ := pieces_of_candidate proper candidate
      have others := inductionHypothesis proper.rest.rest
      rw [afterText, readings, pieces_closing_append, List.filterMap_append,
        filterMap_reading?_map_plain, List.nil_append] at others
      rw [readings, read, List.filterMap_append, filterMap_reading?_map_plain, List.nil_append]
      simp only [Piece.reading?, List.filterMap_cons, List.mem_cons, exists_eq_or_imp, others]
      constructor
      · rintro (rfl | ⟨index, selected, rfl⟩)
        · exact ⟨1, ⟨candidate, id⟩, rfl⟩
        · exact ⟨index + 2, (selected_next_next_iff candidate index).mpr selected, rfl⟩
      · rintro ⟨index, selected, rfl⟩
        rcases index with _ | _ | index
        · exact False.elim selected
        · exact .inl rfl
        · exact .inr ⟨index, (selected_next_next_iff candidate index).mp selected, rfl⟩
  | passed uncalled _ inductionHypothesis =>
      have others := inductionHypothesis proper.rest
      rw [readings] at others
      rw [readings, pieces_of_not_candidate proper uncalled, List.filterMap_append,
        filterMap_reading?_map_plain, List.nil_append]
      simp only [Piece.reading?, List.filterMap_cons, others]
      constructor
      · rintro ⟨index, selected, rfl⟩
        exact ⟨index + 1, (selected_next_iff uncalled index).mpr selected, rfl⟩
      · rintro ⟨index, selected, rfl⟩
        cases index with
        | zero => exact False.elim selected
        | succ index => exact ⟨index, (selected_next_iff uncalled index).mp selected, rfl⟩

theorem occursIn_text_iff (rule : Rule) {cut : Cut} (proper : cut.Proper) :
    rule.occursIn cut.text = true ↔ ∃ index, rule.Selected cut index := by
  have nonempty : rule.occursIn cut.text = true ↔ ∃ reading, reading ∈ rule.readings cut.text := by
    rw [occursIn, Bool.not_eq_true', List.isEmpty_eq_false_iff_exists_mem]
  rw [nonempty]
  constructor
  · rintro ⟨reading, membership⟩
    obtain ⟨index, selected, _⟩ :=
      (rule.exists_reading_text_iff proper reading.specifier).mp ⟨reading, membership, rfl⟩
    exact ⟨index, selected⟩
  · rintro ⟨index, selected⟩
    obtain ⟨reading, membership, _⟩ :=
      (rule.exists_reading_text_iff proper (cut.segment index)).mpr ⟨index, selected, rfl⟩
    exact ⟨reading, membership⟩

end Rule

end ImportSuffix.Specifier
