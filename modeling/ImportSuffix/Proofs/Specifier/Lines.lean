import ImportSuffix.Proofs.Specifier.Statements

/-!
Specifiers and lines.

A specifier holds no line feed.  It may hold a carriage return, but only one that no line feed
follows.  So it stands on one line where lines end in line feeds, with or without carriage
returns before them, and lines are extended one by one, except that blanks in a head may go
over their ends.
-/

namespace ImportSuffix.Specifier

open Text

def isLineBreak (char : Char) : Bool := char == '\n' || char == '\r'

def Unbroken (text : List Char) : Prop := ∀ char ∈ text, isLineBreak char = false

/-- A carriage return without a line feed behind it stands in the text. -/
inductive LoneReturn : List Char → Prop where
  | here {rest} : rest.head? ≠ some '\n' → LoneReturn ('\r' :: rest)
  | later {char rest} : LoneReturn rest → LoneReturn (char :: rest)

/-- What ends the lines of a text. -/
inductive LineEnding where
  | lineFeed
  | carriageReturn
  /-- A carriage return and a line feed. -/
  | both
  deriving DecidableEq, Repr

namespace LineEnding

def mark : LineEnding → List Char
  | lineFeed => ['\n']
  | carriageReturn => ['\r']
  | both => ['\r', '\n']

/-- The text consists of lines that end in this way, and has no other line breaks. -/
def Ends (ending : LineEnding) (text : List Char) : Prop :=
  ∃ lines : List (List Char), (∀ line ∈ lines, Unbroken line) ∧
    text = ending.mark.intercalate lines

end LineEnding

theorem LoneReturn.append_left {text : List Char} (lone : LoneReturn text) (front : List Char) :
    LoneReturn (front ++ text) := by
  induction front with
  | nil => exact lone
  | cons char front inductionHypothesis => exact .later inductionHypothesis

theorem LoneReturn.of_append {front text : List Char} (lone : LoneReturn (front ++ text))
    (unbroken : Unbroken front) : LoneReturn text := by
  induction front with
  | nil => exact lone
  | cons char front inductionHypothesis =>
      obtain ⟨notBreak, unbrokenFront⟩ := List.forall_mem_cons.mp unbroken
      cases lone with
      | here => cases notBreak
      | later further => exact inductionHypothesis further unbrokenFront

theorem not_loneReturn_of_unbroken {text : List Char} (unbroken : Unbroken text) :
    ¬LoneReturn text := by
  intro lone
  rw [← List.append_nil text] at lone
  cases lone.of_append unbroken

/-- Only where lines end in carriage returns alone, there are lone ones. -/
theorem LineEnding.Ends.not_loneReturn {ending : LineEnding} {text : List Char}
    (ends : ending.Ends text) (fed : ending ≠ .carriageReturn) : ¬LoneReturn text := by
  obtain ⟨lines, unbroken, rfl⟩ := ends
  induction lines with
  | nil => exact not_loneReturn_of_unbroken (by simp [Unbroken])
  | cons line rest inductionHypothesis =>
      obtain ⟨unbrokenLine, unbrokenRest⟩ := List.forall_mem_cons.mp unbroken
      have others := inductionHypothesis unbrokenRest
      cases rest with
      | nil => simpa using not_loneReturn_of_unbroken unbrokenLine
      | cons next rest =>
          intro lone
          rw [List.intercalate_cons_cons, List.append_assoc] at lone
          have behind := lone.of_append unbrokenLine
          cases ending with
          | lineFeed =>
              cases behind with
              | later further => exact others further
          | carriageReturn => exact fed rfl
          | both =>
              cases behind with
              | here notFed => exact notFed rfl
              | later further =>
                  cases further with
                  | later further => exact others further

/-- The first part of a text goes as far as its second one lacks the character. -/
theorem prefix_of_append_eq_append {front back start lead : List Char} {char : Char}
    (absent : char ∉ back) (same : front ++ back = start ++ char :: lead) :
    start ++ [char] <+: front := by
  rw [← List.singleton_append, ← List.append_assoc] at same
  rcases List.append_eq_append_iff.mp same with ⟨within, split, rfl⟩ | ⟨rest, whole, _⟩
  · cases within.eq_nil_or_concat with
    | inl nothing => simp [split, nothing]
    | inr more =>
        obtain ⟨others, last, rfl⟩ := more
        rw [List.concat_eq_append, ← List.append_assoc] at split
        obtain ⟨_, sameLast⟩ := List.append_inj' split rfl
        exact absurd (by simp [List.cons.inj sameLast]) absent
  · exact ⟨rest, whole.symm⟩

namespace Rule

theorem Tail.lineFeed_not_mem {rule : Rule} {tail : List Char} (closed : rule.Tail tail) :
    '\n' ∉ tail := by
  obtain ⟨quote, quoted, rfl⟩ := closed
  intro membership
  rcases List.mem_cons.mp membership with rfl | inClosing
  · cases quoted
  · cases rule <;> simp [closing] at inClosing

theorem lineFeed_not_mem_keyword (rule : Rule) : '\n' ∉ rule.keyword := by
  cases rule <;> decide

theorem Gap.of_append {rule : Rule} {blanks more : List Char} (gap : rule.Gap (blanks ++ more))
    (present : blanks ≠ []) : rule.Gap blanks := by
  cases rule with
  | importFrom => exact ⟨present, fun char membership => gap.2 char (by simp [membership])⟩
  | requireCall => exact (List.append_eq_nil_iff.mp gap).1

/-- A line feed in a reading stands among the blanks of its head. -/
theorem Reads.opens_of_lineFeed {rule : Rule} {reading : Reading} {start lead : List Char}
    (grammatical : rule.Reads reading) (whole : reading.text = start ++ '\n' :: lead) :
    rule.Opens (start ++ ['\n']) := by
  obtain ⟨blanks, quote, gap, quoted, headText⟩ := head_iff.mp grammatical.head
  have behind : '\n' ∉ quote :: (reading.specifier ++ reading.tail) := by
    intro membership
    rcases List.mem_cons.mp membership with rfl | inRest
    · cases quoted
    · rcases List.mem_append.mp inRest with inSpecifier | inTail
      · exact grammatical.specifier.lineFeed_not_mem inSpecifier
      · exact grammatical.tail.lineFeed_not_mem inTail
  have inHead : start ++ ['\n'] <+: rule.keyword ++ blanks := by
    have same : rule.keyword ++ blanks ++ quote :: (reading.specifier ++ reading.tail) =
        start ++ '\n' :: lead := by
      rw [← whole, Reading.text, headText]
      simp
    exact prefix_of_append_eq_append behind same
  rcases List.prefix_or_prefix_of_prefix inHead (List.prefix_append rule.keyword blanks) with
    inKeyword | ⟨first, same⟩
  · exact absurd (inKeyword.subset (by simp)) rule.lineFeed_not_mem_keyword
  · have present : first ≠ [] := by
      rintro rfl
      rw [List.append_nil] at same
      exact rule.lineFeed_not_mem_keyword (by simp [same])
    rw [← same] at inHead ⊢
    obtain ⟨more, rfl⟩ := (List.prefix_append_right_inj rule.keyword).mp inHead
    exact ⟨[], first, gap.of_append present, rfl⟩

/-- No reading goes over a line feed, unless a head could go on behind it. -/
theorem apart_lineFeed {rule : Rule} {front : List Char} (ended : ¬rule.Opens (front ++ ['\n']))
    (back : List Char) : rule.Apart front ('\n' :: back) := by
  rintro reading start lead grammatical whole _ ⟨before, rfl⟩ begins
  cases lead with
  | nil => rfl
  | cons char lead =>
      obtain ⟨rfl, _⟩ := List.cons_prefix_cons.mp begins
      have opens := grammatical.opens_of_lineFeed whole
      exact absurd (opens.of_suffix ⟨before, (List.append_assoc _ _ _).symm⟩) ended

theorem extend_lineFeed {rule : Rule} {front : List Char} (ended : ¬rule.Opens (front ++ ['\n']))
    (extension back : List Char) :
    rule.extend extension (front ++ '\n' :: back) =
      rule.extend extension front ++ '\n' :: rule.extend extension back := by
  rw [extend_append (apart_lineFeed ended back), extend_cons (by cases rule <;> decide)]

section

variable {rule : Rule} {text : List Char} {before after : List Piece} {reading : Reading}
  (found : rule.pieces text = before ++ .found reading :: after)
include found

theorem reads_of_pieces_eq : rule.Reads reading := by
  have among : .found reading ∈ rule.pieces text := by simp [found]
  exact reads_of_mem_pieces among

/-- What stands around a reading that is found. -/
theorem text_eq_of_pieces_eq : text = before.flatMap Piece.text ++ reading.head ++
    (reading.specifier ++ (reading.tail ++ after.flatMap Piece.text)) := by
  rw [← rule.flatMap_text_pieces text, found]
  simp [Piece.text, Reading.text]

/-- The line feed behind a carriage return would stand in the specifier, or in place of the
closing quote. -/
theorem loneReturn_of_mem_specifier (returns : '\r' ∈ reading.specifier) : LoneReturn text := by
  have grammatical := reads_of_pieces_eq found
  obtain ⟨start, rest, split⟩ := List.append_of_mem returns
  obtain ⟨quote, quoted, tailText⟩ := grammatical.tail
  have notFed : (rest ++ (reading.tail ++ after.flatMap Piece.text)).head? ≠ some '\n' := by
    intro fed
    cases rest with
    | nil =>
        simp only [tailText, List.nil_append, List.cons_append, List.head?_cons,
          Option.some.injEq] at fed
        rw [fed] at quoted
        cases quoted
    | cons char rest =>
        obtain rfl : char = '\n' := Option.some.inj fed
        exact grammatical.specifier.lineFeed_not_mem (by simp [split])
  rw [text_eq_of_pieces_eq found, split, List.append_assoc start]
  exact ((LoneReturn.here notFed).append_left start).append_left _

/-- A quote that is not closed on its line opens no specifier. -/
theorem ne_of_unclosed {front line rest : List Char} {quote : Char}
    (whole : text = front ++ quote :: (line ++ '\n' :: rest)) (unclosed : Unquoted line) :
    before.flatMap Piece.text ++ reading.head ≠ front ++ [quote] := by
  intro same
  have grammatical := reads_of_pieces_eq found
  obtain ⟨close, quoted, tailText⟩ := grammatical.tail
  rw [text_eq_of_pieces_eq found, same, List.append_assoc, List.append_cancel_left_eq,
    List.singleton_append, List.cons.injEq, tailText] at whole
  rcases List.append_eq_append_iff.mp whole.2 with ⟨more, lineText, split⟩ | ⟨more, split, behind⟩
  · -- The closing quote is the line feed, or stands before it.
    cases more with
    | nil =>
        obtain ⟨rfl, _⟩ := List.cons.inj split
        cases quoted
    | cons char more =>
        obtain ⟨rfl, _⟩ := List.cons.inj split
        rw [unclosed close (by simp [lineText])] at quoted
        cases quoted
  · cases more with
    | nil =>
        obtain ⟨rfl, _⟩ := List.cons.inj behind
        cases quoted
    | cons char more =>
        obtain ⟨rfl, _⟩ := List.cons.inj behind
        exact grammatical.specifier.lineFeed_not_mem (by simp [split])

end

/-- What the search of a rule has to do with the lines of a text. -/
structure KeepsToLines (rule : Rule) (text : List Char) : Prop where
  /-- No specifier holds a line feed. -/
  oneLine : ∀ reading ∈ rule.readings text, '\n' ∉ reading.specifier
  /-- A specifier holds a carriage return only if no line feed follows that. -/
  returns : ∀ reading ∈ rule.readings text, '\r' ∈ reading.specifier → LoneReturn text
  /-- A quote that is not closed on its line opens no specifier. -/
  unclosed : ∀ front quote line rest, text = front ++ quote :: (line ++ '\n' :: rest) →
    Unquoted line → ∀ before reading after, rule.pieces text = before ++ .found reading :: after →
      before.flatMap Piece.text ++ reading.head ≠ front ++ [quote]
  /-- Lines are extended one by one, where none ends in the head of an import. -/
  separate : ∀ extension front back, text = front ++ '\n' :: back →
    ¬rule.Opens (front ++ ['\n']) → rule.extend extension text =
      rule.extend extension front ++ '\n' :: rule.extend extension back

theorem keepsToLines (rule : Rule) (text : List Char) : rule.KeepsToLines text := by
  refine ⟨?_, ?_, ?_, ?_⟩
  · intro reading membership
    exact (reads_of_mem_pieces (mem_readings_iff.mp membership)).specifier.lineFeed_not_mem
  · intro reading membership returns
    obtain ⟨before, after, found⟩ := List.append_of_mem (mem_readings_iff.mp membership)
    exact loneReturn_of_mem_specifier found returns
  · intro front quote line rest whole unclosed before reading after found
    exact ne_of_unclosed found whole unclosed
  · rintro extension front back rfl ended
    exact extend_lineFeed ended extension back

/-- Two lines that end in carriage returns alone, with a specifier that goes from one to the
other. -/
def acrossReturn : Rule → List Char
  | importFrom => "from './a\rconst b = 'c'".toList
  | requireCall => "require('./a\rconst b = ')')".toList

theorem ends_acrossReturn (rule : Rule) : LineEnding.carriageReturn.Ends (acrossReturn rule) := by
  cases rule with
  | importFrom =>
      exact ⟨["from './a".toList, "const b = 'c'".toList], by simp [Unbroken, isLineBreak], rfl⟩
  | requireCall =>
      exact ⟨["require('./a".toList, "const b = ')')".toList], by simp [Unbroken, isLineBreak],
        rfl⟩

theorem exists_broken_acrossReturn (rule : Rule) :
    ∃ reading ∈ rule.readings (acrossReturn rule), ¬Unbroken reading.specifier := by
  have broken : ∀ specifier : List Char, '\r' ∈ specifier → ¬Unbroken specifier :=
    fun specifier returns unbroken => absurd (unbroken '\r' returns) (by decide)
  cases rule with
  | importFrom =>
      exact ⟨⟨"from '".toList, "./a\rconst b = ".toList, "'".toList⟩, by decide +kernel,
        broken _ (by decide)⟩
  | requireCall =>
      exact ⟨⟨"require('".toList, "./a\rconst b = ".toList, "')".toList⟩, by decide +kernel,
        broken _ (by decide)⟩

/-- All specifiers keep to one line, whatever ends the lines, unless it is a carriage return
alone. -/
theorem unbroken_iff (rule : Rule) :
    (∀ text, rule.KeepsToLines text) ∧
      ∀ ending : LineEnding, (∀ text, ending.Ends text →
        ∀ reading ∈ rule.readings text, Unbroken reading.specifier) ↔ ending ≠ .carriageReturn := by
  refine ⟨rule.keepsToLines, fun ending => ⟨?_, ?_⟩⟩
  · rintro unbroken rfl
    obtain ⟨reading, membership, broken⟩ := rule.exists_broken_acrossReturn
    exact broken (unbroken _ rule.ends_acrossReturn reading membership)
  · intro fed text ends reading membership char inSpecifier
    have keeps := rule.keepsToLines text
    have notFeed : char ≠ '\n' :=
      ne_of_mem_of_not_mem inSpecifier (keeps.oneLine reading membership)
    have notReturn : char ≠ '\r' := by
      rintro rfl
      exact ends.not_loneReturn fed (keeps.returns reading membership inSpecifier)
    simp [isLineBreak, notFeed, notReturn]

/-- The first line has no closing quote, and the search goes on in the second one. -/
theorem unbroken_iff_unclosed :
    LineEnding.both.Ends "from './a\r\nfrom './b'".toList ∧
      Rule.importFrom.readings "from './a\r\nfrom './b'".toList =
        [⟨"from '".toList, "./b".toList, "'".toList⟩] ∧
      (∀ reading ∈ Rule.importFrom.readings "from './a\r\nfrom './b'".toList,
        Unbroken reading.specifier) := by
  have ends : LineEnding.both.Ends "from './a\r\nfrom './b'".toList :=
    ⟨["from './a".toList, "from './b'".toList], by simp [Unbroken, isLineBreak], rfl⟩
  exact ⟨ends, by decide +kernel, ((unbroken_iff .importFrom).2 .both).mpr (by decide) _ ends⟩

/-- With carriage returns alone, a quote that is not closed on its line makes either rule extend
what ends at a quote of the next line. -/
theorem not_unbroken_acrossReturn :
    (LineEnding.carriageReturn.Ends (acrossReturn .importFrom) ∧
      (∃ reading ∈ Rule.importFrom.readings (acrossReturn .importFrom),
        ¬Unbroken reading.specifier) ∧
      Rule.importFrom.extend ".js".toList (acrossReturn .importFrom) =
        "from './a\rconst b = .js'c'".toList) ∧
    LineEnding.carriageReturn.Ends (acrossReturn .requireCall) ∧
      (∃ reading ∈ Rule.requireCall.readings (acrossReturn .requireCall),
        ¬Unbroken reading.specifier) ∧
      Rule.requireCall.extend ".js".toList (acrossReturn .requireCall) =
        "require('./a\rconst b = .js')')".toList := by
  refine ⟨⟨ends_acrossReturn .importFrom, exists_broken_acrossReturn .importFrom, ?_⟩,
    ends_acrossReturn .requireCall, exists_broken_acrossReturn .requireCall, ?_⟩
  · decide +kernel
  · decide +kernel

end Rule

end ImportSuffix.Specifier
