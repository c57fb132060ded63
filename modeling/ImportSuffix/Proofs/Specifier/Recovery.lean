import ImportSuffix.Proofs.Specifier.Insertion

/-!
Reading back what was written.

A rule reads an extended text as it read the text before, if the extension holds only what a
specifier may hold.  An extension with a line feed, on the other hand, makes every specifier
unreadable.  One pass still settles a text then, unless the extension ends as the head of
an import.
-/

namespace ImportSuffix.Specifier

open Text

/-- The piece with its specifier extended. -/
def Piece.extended (extension : List Char) : Piece → Piece
  | plain char => plain char
  | found reading => found (reading.extend extension)

namespace Rule

/-- The search finds in the extended text what it found before, in the same places and with
extended specifiers. -/
def ReadsBack (rule : Rule) (extension text : List Char) : Prop :=
  rule.pieces (rule.extend extension text) = (rule.pieces text).map (Piece.extended extension)

@[simp] theorem map_extended_map_plain (extension text : List Char) :
    (text.map Piece.plain).map (Piece.extended extension) = text.map Piece.plain := by
  simp [Piece.extended]

/-- The segment behind the first one is a candidate before and after, if it is not extended. -/
theorem candidate_next_extend_iff {rule : Rule} {segment : List Char} {quote : Char} {rest : Cut}
    (extension : List Char) :
    rule.Candidate (.next segment quote (rest.extend rule extension)) 1 ↔
      rule.Candidate (.next segment quote rest) 1 := by
  have first : (rest.extend rule extension).segment 0 = rest.segment 0 :=
    Cut.segment_extend_of_not_selected id extension
  simp only [Candidate, Cut.segment_next_zero, Cut.segment_next_succ, Cut.size_next,
    Cut.size_extend, first, closing_prefix_segment_extend_iff]

section

variable {rule : Rule} {extension : List Char}
  (allowed : ∀ char ∈ extension, rule.allows char = true)
include allowed

theorem pieces_extend_text {cut : Cut} (proper : cut.Proper) :
    rule.pieces (cut.extend rule extension).text =
      (rule.pieces cut.text).map (Piece.extended extension) := by
  have unquoted : Unquoted extension := unquoted_of_allows allowed
  induction rule.searched proper with
  | @last segment unquotedSegment =>
      have same : (Cut.last segment).extend rule extension = .last segment := rfl
      rw [same, Cut.text, pieces_of_unquoted unquotedSegment, map_extended_map_plain]
  | @found segment quote specifier close after candidate _ inductionHypothesis =>
      obtain ⟨_, ⟨front, blanks, gap, rfl⟩, body, closed⟩ := id candidate
      obtain ⟨behind, afterText⟩ := closing_prefix_text closed
      have closedExtended : rule.closing <+: (after.extend rule extension).segment 0 := by
        rwa [Cut.segment_extend_of_not_selected id]
      obtain ⟨behindExtended, afterExtended⟩ := closing_prefix_text closedExtended
      have properExtended := proper.extend rule unquoted
      rw [extend_next_next candidate] at properExtended ⊢
      have others := inductionHypothesis proper.rest.rest
      rw [← afterText, ← afterExtended, pieces_closing_append, pieces_closing_append,
        List.map_append, map_extended_map_plain, List.append_cancel_left_eq] at others
      rw [pieces_of_gap gap proper body afterText.symm,
        pieces_of_gap gap properExtended (body.extend allowed) afterExtended.symm, others,
        List.map_append, map_extended_map_plain]
      rfl
  | @passed segment quote rest uncalled _ inductionHypothesis =>
      have uncalledExtended := mt (candidate_next_extend_iff extension).mp uncalled
      have properExtended := proper.extend rule unquoted
      rw [extend_next uncalled] at properExtended ⊢
      rw [pieces_of_not_candidate proper uncalled,
        pieces_of_not_candidate properExtended uncalledExtended,
        inductionHypothesis proper.rest, List.map_append, map_extended_map_plain]
      rfl

theorem readsBack_of_allows (text : List Char) : rule.ReadsBack extension text := by
  have extended := pieces_extend_text allowed (Cut.proper_ofText text)
  rwa [Cut.text_ofText, ← extend_eq] at extended

end

/-- Where nothing is found, there is nothing to read back. -/
theorem readsBack_of_not_occursIn {rule : Rule} {text : List Char}
    (absent : rule.occursIn text = false) (extension : List Char) :
    rule.ReadsBack extension text := by
  have none : rule.readings text = [] := by
    simpa [occursIn] using absent
  have plain : ∀ piece ∈ rule.pieces text, piece.extended extension = piece := by
    intro piece membership
    cases piece with
    | plain char => rfl
    | found reading =>
        have found := mem_readings_iff.mpr membership
        rw [none] at found
        cases found
  have unchanged : (rule.pieces text).map (Piece.extended extension) = rule.pieces text :=
    (List.map_congr_left plain).trans (List.map_id _)
  rw [ReadsBack, extend_of_not_occursIn absent, unchanged]

theorem unquoted_of_admitted {rule : Rule} {extension : List Char}
    (admitted : ∀ char ∈ extension, char ≠ '\n' → rule.allows char = true) :
    Unquoted extension := by
  intro char membership
  cases quoted : isQuote char with
  | false => rfl
  | true =>
      have noLineFeed : char ≠ '\n' := by
        rintro rfl
        cases quoted
      have inside := admitted char membership noLineFeed
      rw [allows_eq_false_of_isQuote _ quoted] at inside
      cases inside

/-- An extension without a line feed is all that it takes to read everything back. -/
theorem readsBack_iff {rule : Rule} {extension : List Char}
    (admitted : ∀ char ∈ extension, char ≠ '\n' → rule.allows char = true) (text : List Char) :
    rule.ReadsBack extension text ↔ '\n' ∉ extension ∨ rule.occursIn text = false := by
  constructor
  · intro readsBack
    by_cases broken : '\n' ∈ extension
    · refine .inr (Bool.eq_false_iff.mpr fun occurs => ?_)
      obtain ⟨reading, found⟩ := List.exists_mem_of_ne_nil (rule.readings text) (by
        simpa [occursIn] using occurs)
      have again : Piece.found (reading.extend extension) ∈
          rule.pieces (rule.extend extension text) := by
        rw [readsBack]
        exact List.mem_map_of_mem (mem_readings_iff.mp found)
      exact (reads_of_mem_pieces again).specifier.lineFeed_not_mem
        ((suffix_extend extension reading.specifier).subset broken)
    · exact .inl broken
  · rintro (oneLine | absent)
    · apply readsBack_of_allows
      intro char membership
      exact admitted char membership (ne_of_mem_of_not_mem membership oneLine)
    · exact readsBack_of_not_occursIn absent extension

/-- What is read back ends in the extension. -/
theorem ReadsBack.suffix {rule : Rule} {extension text : List Char}
    (readsBack : rule.ReadsBack extension text) :
    ∀ again ∈ rule.readings (rule.extend extension text), extension <:+ again.specifier := by
  intro again membership
  have found := mem_readings_iff.mp membership
  rw [readsBack] at found
  obtain ⟨piece, _, same⟩ := List.mem_map.mp found
  cases piece with
  | plain char => cases same
  | found reading =>
      cases same
      exact suffix_extend extension reading.specifier

/-- The head of an import has no dot, so behind one there is room for all of it. -/
theorem Opens.suffix {segment ending : List Char} (opens : Rule.importFrom.Opens segment)
    (ends : ending <:+ segment) (dotted : '.' ∈ ending) : Rule.importFrom.Opens ending := by
  obtain ⟨front, blanks, gap, rfl⟩ := opens
  rcases List.suffix_or_suffix_of_suffix ends (List.suffix_append front _) with
    within | ⟨start, whole⟩
  · rcases List.mem_append.mp (within.subset dotted) with inKeyword | inBlanks
    · simp [keyword] at inKeyword
    · exact absurd (gap.2 _ inBlanks) (by decide)
  · exact ⟨start, blanks, gap, whole.symm⟩

section

variable {extension : List Char} (broken : '\n' ∈ extension)
include broken

theorem not_body_extend (rule : Rule) (specifier : List Char) :
    ¬rule.Body (Specifier.extend extension specifier) := by
  intro body
  exact body.lineFeed_not_mem ((suffix_extend extension specifier).subset broken)

/-- A rule finds none of the specifiers that it has broken, and others only where a broken one
ends as the head of the form. -/
theorem not_candidate_extend_self {rule : Rule} {cut : Cut}
    (unopened : ∀ index, rule.Selected cut index → rule.Body (cut.segment (index + 1)) →
      ¬rule.Opens (Specifier.extend extension (cut.segment index))) (index : Nat) :
    ¬rule.Candidate (cut.extend rule extension) index := by
  cases index with
  | zero => exact id
  | succ index =>
      rintro ⟨inside, opens, body, closed⟩
      by_cases here : rule.Selected cut (index + 1)
      · rw [Cut.segment_extend_of_selected here] at body
        exact not_body_extend broken rule _ body
      · rw [Cut.segment_extend_of_not_selected here] at body
        by_cases before : rule.Selected cut index
        · rw [Cut.segment_extend_of_selected before] at opens
          exact unopened index before body opens
        · rw [Cut.segment_extend_of_not_selected before] at opens
          rw [Cut.size_extend] at inside
          rw [closing_prefix_segment_extend_iff] at closed
          exact here ⟨⟨inside, opens, body, closed⟩, before⟩

theorem not_candidate_requireCall_extend (cut : Cut) (index : Nat) :
    ¬Rule.requireCall.Candidate (cut.extend .requireCall extension) index := by
  apply not_candidate_extend_self broken
  intro index selected body _
  cases index with
  | zero => exact selected
  | succ index => exact body.not_closing_prefix selected.candidate.2.2.2

theorem not_candidate_importFrom_extend (dotted : '.' ∈ extension)
    (unopened : ¬Rule.importFrom.Opens extension) (cut : Cut) (index : Nat) :
    ¬Rule.importFrom.Candidate (cut.extend .importFrom extension) index := by
  apply not_candidate_extend_self broken
  intro index _ _ opens
  exact unopened (opens.suffix (suffix_extend _ _) dotted)

end

theorem extend_of_not_candidate {rule : Rule} {cut : Cut}
    (uncalled : ∀ index, ¬rule.Candidate cut index) (proper : cut.Proper)
    (extension : List Char) : rule.extend extension cut.text = cut.text := by
  rw [extend_text rule extension proper,
    extend_of_not_selected fun index selected => uncalled index selected.candidate]

end Rule

/-- The cut as both rules leave it. -/
def Cut.pass (extension : List Char) (cut : Cut) : Cut :=
  (cut.extend .importFrom extension).extend .requireCall extension

section

variable {extension : List Char} (unquoted : Unquoted extension)
include unquoted

theorem Cut.Proper.pass {cut : Cut} (proper : cut.Proper) : (cut.pass extension).Proper :=
  (proper.extend .importFrom unquoted).extend .requireCall unquoted

theorem applyRules_text {cut : Cut} (proper : cut.Proper) :
    (applyRules extension [.importFrom, .requireCall] cut.text).1 = (cut.pass extension).text := by
  rw [applyRules_fst, List.foldl_cons, List.foldl_cons, List.foldl_nil,
    Rule.extend_text _ _ proper, Rule.extend_text _ _ (proper.extend .importFrom unquoted)]
  rfl

/-- Where an extension breaks every specifier and opens no import, one pass settles a text. -/
theorem applyRules_of_broken (broken : '\n' ∈ extension) (dotted : '.' ∈ extension)
    (unopened : ¬Rule.importFrom.Opens extension) {cut : Cut} (proper : cut.Proper) :
    (applyRules extension [.importFrom, .requireCall] (cut.pass extension).text).1 =
      (cut.pass extension).text := by
  have noImport : ∀ index, ¬Rule.importFrom.Candidate (cut.pass extension) index := by
    intro index candidate
    rw [Cut.pass, Rule.candidate_importFrom_extend_iff] at candidate
    exact Rule.not_candidate_importFrom_extend broken dotted unopened cut index candidate
  have noCall : ∀ index, ¬Rule.requireCall.Candidate (cut.pass extension) index :=
    Rule.not_candidate_requireCall_extend broken (cut.extend .importFrom extension)
  have properPass := proper.pass unquoted
  rw [applyRules_of_fixed]
  simp only [List.forall_mem_cons, List.not_mem_nil, false_implies, implies_true, and_true]
  exact ⟨Rule.extend_of_not_candidate noImport properPass extension,
    Rule.extend_of_not_candidate noCall properPass extension⟩

end

/-- Two specifiers with one quote between them, behind the head of an import. -/
def neighbours : Cut :=
  .next "from ".toList '\'' (.next "./x".toList '\'' (.next "./y".toList '\'' (.last [])))

theorem proper_neighbours : neighbours.Proper := by
  refine .next ?_ rfl (.next ?_ rfl (.next ?_ rfl (.last ?_))) <;> simp [Unquoted, isQuote]

/-- The first pass breaks the first specifier, whose end then opens an import of the second. -/
theorem neighbours_pass_pass_ne {extension : List Char} (broken : '\n' ∈ extension)
    (opens : Rule.importFrom.Opens extension) :
    (neighbours.pass extension).pass extension ≠ neighbours.pass extension := by
  let imported := neighbours.extend .importFrom extension
  let once := neighbours.pass extension
  have opened : Rule.importFrom.Opens (extend extension "./x".toList) :=
    opens.of_suffix (suffix_extend _ _)
  have head : imported.segment 0 = "from ".toList :=
    Cut.segment_extend_of_not_selected id extension
  have first : imported.segment 1 = extend extension "./x".toList :=
    Cut.segment_extend_of_selected (by decide) extension
  have second : imported.segment 2 = "./y".toList :=
    Cut.segment_extend_of_not_selected (by decide) extension
  -- No call is extended, since both specifiers stand behind the head of an import.
  have firstOnce : once.segment 1 = extend extension "./x".toList := by
    refine (Cut.segment_extend_of_not_selected ?_ extension).trans first
    exact fun selected => absurd (head ▸ selected.candidate.2.1) (by decide)
  have secondOnce : once.segment 2 = "./y".toList := by
    refine (Cut.segment_extend_of_not_selected ?_ extension).trans second
    exact fun selected => opened.not_requireCall (first ▸ selected.candidate.2.1)
  have notFirst : ¬Rule.importFrom.Selected once 1 := by
    intro selected
    exact Rule.not_body_extend broken .importFrom _ (firstOnce ▸ selected.candidate.body)
  have isSecond : Rule.importFrom.Selected once 2 := by
    refine ⟨⟨?_, firstOnce ▸ opened, ?_, List.nil_prefix⟩, notFirst⟩
    · simp [once, Cut.pass, neighbours, Cut.size]
    · rw [secondOnce]
      decide
  have secondTwice : extension <:+ (once.pass extension).segment 2 := by
    rw [Cut.pass, Cut.segment_extend]
    split
    next => exact suffix_extend _ _
    next =>
      rw [Cut.segment_extend_of_selected isSecond]
      exact suffix_extend _ _
  intro same
  rw [show once.pass extension = once from same, secondOnce] at secondTwice
  exact absurd (secondTwice.subset broken) (by decide)

/-- One pass settles every text, unless the extension breaks all specifiers and ends as the head
of an import. -/
theorem applyRules_settles_iff {extension : List Char}
    (admitted : ∀ char ∈ extension, char ≠ '\n' → Rule.importFrom.allows char = true)
    (dotted : '.' ∈ extension) :
    (∀ text, (applyRules extension [.importFrom, .requireCall]
        (applyRules extension [.importFrom, .requireCall] text).1).1 =
          (applyRules extension [.importFrom, .requireCall] text).1) ↔
      '\n' ∉ extension ∨ ¬Rule.importFrom.Opens extension := by
  have unquoted := Rule.unquoted_of_admitted admitted
  constructor
  · intro settled
    by_cases broken : '\n' ∈ extension
    · refine .inr fun opens => ?_
      have again := settled neighbours.text
      have properPass := proper_neighbours.pass unquoted
      rw [applyRules_text unquoted proper_neighbours, applyRules_text unquoted properPass] at again
      exact neighbours_pass_pass_ne broken opens
        ((properPass.pass unquoted).eq_of_text_eq properPass again)
    · exact .inl broken
  · rintro settled text
    by_cases broken : '\n' ∈ extension
    · have proper := Cut.proper_ofText text
      have once := applyRules_text unquoted proper
      rw [Cut.text_ofText] at once
      rw [once]
      exact applyRules_of_broken unquoted broken dotted (settled.resolve_left (not_not_intro broken))
        proper
    · rw [applyRules_applyRules]
      intro char membership
      exact admitted char membership (ne_of_mem_of_not_mem membership broken)

theorem Extender.settles_iff {extension : String}
    (admitted : ∀ char ∈ extension.toList, char ≠ '\n' → Rule.importFrom.allows char = true)
    (dotted : '.' ∈ extension.toList) :
    (∀ text, ((Extender.ofExtension extension).apply
        ((Extender.ofExtension extension).apply text).text).text =
          ((Extender.ofExtension extension).apply text).text) ↔
      '\n' ∉ extension.toList ∨ ¬Rule.importFrom.Opens extension.toList := by
  rw [← applyRules_settles_iff admitted dotted]
  simp only [Extender.apply, Extender.ofExtension, String.toList_ofList, String.ofList_inj]
  constructor
  · intro settled text
    simpa using settled (String.ofList text)
  · exact fun settled text => settled text.toList

end ImportSuffix.Specifier
