import ImportSuffix.Proofs.Specifier.Occurrences

/-!
The places of the occurrences in a text.

A form can be read in one way at most from a place.  So only one list of occurrences, from left
to right, has no two that overlap and no place beside them where another one starts.  It is the
list that the search finds, and with what stands between its members it makes up the text.
-/

namespace ImportSuffix.Specifier

/-- A reading of a form, and the number of characters in front of it. -/
structure Occurrence where
  start : Nat
  reading : Reading
  deriving DecidableEq, Repr

namespace Occurrence

def stop (occurrence : Occurrence) : Nat := occurrence.start + occurrence.reading.text.length

/-- The readings among pieces that stand behind so many characters. -/
def ofPieces : Nat → List Piece → List Occurrence
  | _, [] => []
  | start, .plain _ :: rest => ofPieces (start + 1) rest
  | start, .found reading :: rest =>
      ⟨start, reading⟩ :: ofPieces (start + reading.text.length) rest

/-- The text from a place on, where occurrences are written anew and what is between them stays. -/
def splice (write : Reading → List Char) (text : List Char) : Nat → List Occurrence → List Char
  | start, [] => text.drop start
  | start, occurrence :: later =>
      (text.drop start).take (occurrence.start - start) ++ write occurrence.reading ++
        splice write text occurrence.stop later

end Occurrence

namespace Piece

def write (write : Reading → List Char) : Piece → List Char
  | plain char => [char]
  | found reading => write reading

theorem write_text : write Reading.text = text := by
  funext piece
  cases piece <;> rfl

theorem write_extend (extension : List Char) :
    write (fun reading => (reading.extend extension).text) = extend extension := by
  funext piece
  cases piece <;> rfl

end Piece

namespace Occurrence

section

variable {write : Reading → List Char} {text : List Char} {start : Nat}

theorem map_reading_ofPieces (start : Nat) (pieces : List Piece) :
    (ofPieces start pieces).map reading = pieces.filterMap Piece.reading? := by
  induction pieces generalizing start with
  | nil => rfl
  | cons piece rest inductionHypothesis =>
      cases piece with
      | plain char => exact inductionHypothesis (start + 1)
      | found reading => simp [ofPieces, Piece.reading?, inductionHypothesis]

theorem le_start_of_mem_ofPieces {pieces : List Piece} {occurrence : Occurrence}
    (membership : occurrence ∈ ofPieces start pieces) : start ≤ occurrence.start := by
  induction pieces generalizing start with
  | nil => cases membership
  | cons piece rest inductionHypothesis =>
      cases piece with
      | plain char => exact Nat.le_of_succ_le (inductionHypothesis membership)
      | found reading =>
          cases List.mem_cons.mp membership with
          | inl same => exact same ▸ Nat.le_refl start
          | inr later => exact Nat.le_trans (Nat.le_add_right _ _) (inductionHypothesis later)

/-- A character in front of all occurrences stays. -/
theorem splice_of_lt {char : Char} {rest : List Char} {occurrences : List Occurrence}
    (here : text.drop start = char :: rest)
    (later : ∀ occurrence ∈ occurrences, start < occurrence.start) :
    splice write text start occurrences = char :: splice write text (start + 1) occurrences := by
  have behind : text.drop (start + 1) = rest := by rw [← List.tail_drop, here, List.tail_cons]
  cases occurrences with
  | nil => rw [splice, splice, here, behind]
  | cons occurrence others =>
      have before := later occurrence List.mem_cons_self
      have gap : occurrence.start - start = (occurrence.start - (start + 1)) + 1 := by omega
      rw [splice, splice, here, behind, gap, List.take_succ_cons]
      rfl

theorem splice_ofPieces {pieces : List Piece}
    (whole : pieces.flatMap Piece.text = text.drop start) :
    splice write text start (ofPieces start pieces) = pieces.flatMap (Piece.write write) := by
  induction pieces generalizing start with
  | nil => exact whole.symm
  | cons piece rest inductionHypothesis =>
      rw [List.flatMap_cons] at whole ⊢
      cases piece with
      | plain char =>
          have here : text.drop start = char :: rest.flatMap Piece.text := whole.symm
          have behind : rest.flatMap Piece.text = text.drop (start + 1) := by
            rw [← List.tail_drop, here, List.tail_cons]
          rw [ofPieces, splice_of_lt here fun _ => le_start_of_mem_ofPieces,
            inductionHypothesis behind]
          rfl
      | found reading =>
          have behind : rest.flatMap Piece.text = text.drop (start + reading.text.length) := by
            rw [← List.drop_drop, ← whole]
            exact List.drop_left.symm
          rw [ofPieces, splice, Nat.sub_self, List.take_zero, stop, inductionHypothesis behind]
          rfl

end

end Occurrence

namespace Rule

/-- The text holds a reading of the form from the start of the occurrence on. -/
structure OccursAt (rule : Rule) (text : List Char) (occurrence : Occurrence) : Prop where
  reads : rule.Reads occurrence.reading
  inText : occurrence.reading.text <+: text.drop occurrence.start

/-- From a place on, the occurrences from left to right that do not overlap and leave none out. -/
structure LeftmostFrom (rule : Rule) (text : List Char) (start : Nat)
    (found : List Occurrence) : Prop where
  occurs : ∀ occurrence ∈ found, rule.OccursAt text occurrence
  notBefore : ∀ occurrence ∈ found, start ≤ occurrence.start
  apart : found.Pairwise fun occurrence later => occurrence.stop ≤ later.start
  /-- No reading starts in front of the occurrences, between two of them or behind them. -/
  complete : ∀ other, rule.OccursAt text other → start ≤ other.start →
    ∃ occurrence ∈ found, occurrence.start ≤ other.start ∧ other.start < occurrence.stop

/-- The occurrences in a whole text. -/
def Leftmost (rule : Rule) (text : List Char) (found : List Occurrence) : Prop :=
  rule.LeftmostFrom text 0 found

def occurrences (rule : Rule) (text : List Char) : List Occurrence :=
  Occurrence.ofPieces 0 (rule.pieces text)

section

variable {rule : Rule} {text : List Char} {start : Nat} {found : List Occurrence}

/-- The form is read from a place exactly if it occurs there. -/
theorem readAt?_drop_eq_some_iff {reading : Reading} {behind : List Char} :
    rule.readAt? (text.drop start) = some (reading, behind) ↔
      rule.OccursAt text ⟨start, reading⟩ ∧ behind = text.drop (start + reading.text.length) := by
  rw [readAt?_eq_some_iff, ← List.drop_drop]
  constructor
  · intro ⟨whole, reads⟩
    refine ⟨⟨reads, behind, whole.symm⟩, ?_⟩
    rw [whole, List.drop_left]
  · intro ⟨occurs, same⟩
    obtain ⟨rest, whole⟩ := occurs.inText
    have split : text.drop start = reading.text ++ rest := whole.symm
    rw [split, List.drop_left] at same
    exact ⟨same ▸ split, occurs.reads⟩

namespace OccursAt

theorem reading_unique {first second : Reading} (occursFirst : rule.OccursAt text ⟨start, first⟩)
    (occursSecond : rule.OccursAt text ⟨start, second⟩) : first = second := by
  have readFirst := readAt?_drop_eq_some_iff.mpr ⟨occursFirst, rfl⟩
  have readSecond := readAt?_drop_eq_some_iff.mpr ⟨occursSecond, rfl⟩
  rw [readFirst, Option.some.injEq, Prod.mk.injEq] at readSecond
  exact readSecond.1

theorem eq_of_start_eq {first second : Occurrence} (occursFirst : rule.OccursAt text first)
    (occursSecond : rule.OccursAt text second) (same : first.start = second.start) :
    first = second := by
  obtain ⟨place, reading⟩ := first
  obtain ⟨otherPlace, otherReading⟩ := second
  obtain rfl : place = otherPlace := same
  rw [occursFirst.reading_unique occursSecond]

theorem start_lt_stop {occurrence : Occurrence} (occurs : rule.OccursAt text occurrence) :
    occurrence.start < occurrence.stop := by
  have read := readAt?_drop_eq_some_iff.mpr ⟨occurs, rfl⟩
  have shorter := length_lt_of_readAt? read
  rw [List.length_drop, List.length_drop] at shorter
  unfold Occurrence.stop
  omega

end OccursAt

namespace LeftmostFrom

theorem nil (ended : text.drop start = []) : rule.LeftmostFrom text start [] where
  occurs := by simp
  notBefore := by simp
  apart := .nil
  complete other occurs later := by
    have inside := occurs.start_lt_stop
    have fits := occurs.inText.length_le
    rw [List.length_drop] at fits
    have short := List.drop_eq_nil_iff.mp ended
    unfold Occurrence.stop at inside
    omega

/-- The search passes a place from which the form cannot be read. -/
theorem of_passed (missed : rule.readAt? (text.drop start) = none)
    (leftmost : rule.LeftmostFrom text (start + 1) found) : rule.LeftmostFrom text start found where
  occurs := leftmost.occurs
  notBefore occurrence membership := Nat.le_of_succ_le (leftmost.notBefore occurrence membership)
  apart := leftmost.apart
  complete other occurs later := by
    apply leftmost.complete other occurs
    apply Nat.lt_of_le_of_ne later
    intro same
    rw [same, readAt?_drop_eq_some_iff.mpr ⟨occurs, rfl⟩] at missed
    cases missed

/-- The search goes on behind what it has found. -/
theorem cons {reading : Reading} (here : rule.OccursAt text ⟨start, reading⟩)
    (leftmost : rule.LeftmostFrom text (start + reading.text.length) found) :
    rule.LeftmostFrom text start (⟨start, reading⟩ :: found) where
  occurs := List.forall_mem_cons.mpr ⟨here, leftmost.occurs⟩
  notBefore := by
    refine List.forall_mem_cons.mpr ⟨Nat.le_refl start, ?_⟩
    intro occurrence membership
    exact Nat.le_trans (Nat.le_add_right _ _) (leftmost.notBefore occurrence membership)
  apart := List.pairwise_cons.mpr ⟨leftmost.notBefore, leftmost.apart⟩
  complete other occurs later := by
    by_cases inside : other.start < start + reading.text.length
    · exact ⟨⟨start, reading⟩, List.mem_cons_self, later, inside⟩
    · obtain ⟨occurrence, membership, covers⟩ := leftmost.complete other occurs (by omega)
      exact ⟨occurrence, List.mem_cons_of_mem _ membership, covers⟩

/-- Behind its first member, such a list is one from the end of that member on. -/
theorem tail {first : Occurrence} (leftmost : rule.LeftmostFrom text start (first :: found)) :
    rule.LeftmostFrom text first.stop found where
  occurs := (List.forall_mem_cons.mp leftmost.occurs).2
  notBefore := (List.pairwise_cons.mp leftmost.apart).1
  apart := (List.pairwise_cons.mp leftmost.apart).2
  complete other occurs later := by
    have occursFirst := leftmost.occurs first List.mem_cons_self
    have early := leftmost.notBefore first List.mem_cons_self
    have inside := occursFirst.start_lt_stop
    obtain ⟨occurrence, membership, covers⟩ := leftmost.complete other occurs (by omega)
    cases List.mem_cons.mp membership with
    | inl same =>
        have before := same ▸ covers.2
        omega
    | inr among => exact ⟨occurrence, among, covers⟩

/-- No occurrence from the place on starts before the first one of the list. -/
theorem start_le {first other : Occurrence}
    (leftmost : rule.LeftmostFrom text start (first :: found)) (occurs : rule.OccursAt text other)
    (later : start ≤ other.start) : first.start ≤ other.start := by
  obtain ⟨occurrence, membership, covers⟩ := leftmost.complete other occurs later
  have inside := (leftmost.occurs first List.mem_cons_self).start_lt_stop
  cases List.mem_cons.mp membership with
  | inl same => exact same ▸ covers.1
  | inr among =>
      have behind := (List.pairwise_cons.mp leftmost.apart).1 occurrence among
      omega

/-- By induction on one list: the first members start at the same place, so they agree. -/
theorem unique {first second : List Occurrence} (leftmostFirst : rule.LeftmostFrom text start first)
    (leftmostSecond : rule.LeftmostFrom text start second) : first = second := by
  induction first generalizing start second with
  | nil =>
      cases second with
      | nil => rfl
      | cons occurrence others =>
          have occurs := leftmostSecond.occurs occurrence List.mem_cons_self
          have later := leftmostSecond.notBefore occurrence List.mem_cons_self
          obtain ⟨_, membership, _⟩ := leftmostFirst.complete occurrence occurs later
          cases membership
  | cons occurrence others inductionHypothesis =>
      have occurs := leftmostFirst.occurs occurrence List.mem_cons_self
      have later := leftmostFirst.notBefore occurrence List.mem_cons_self
      cases second with
      | nil =>
          obtain ⟨_, membership, _⟩ := leftmostSecond.complete occurrence occurs later
          cases membership
      | cons other rest =>
          have occursOther := leftmostSecond.occurs other List.mem_cons_self
          have laterOther := leftmostSecond.notBefore other List.mem_cons_self
          have sameStart := Nat.le_antisymm (leftmostFirst.start_le occursOther laterOther)
            (leftmostSecond.start_le occurs later)
          have same := occurs.eq_of_start_eq occursOther sameStart
          rw [same] at leftmostFirst ⊢
          rw [inductionHypothesis leftmostFirst.tail leftmostSecond.tail]

/-- The search, by induction on its steps through the rest of the text. -/
theorem ofPieces {rest : List Char} (behind : text.drop start = rest) :
    rule.LeftmostFrom text start (Occurrence.ofPieces start (rule.pieces rest)) := by
  fun_induction pieces rule rest generalizing start with
  | case1 => exact .nil behind
  | case2 char rest reading afterReading found inductionHypothesis =>
      rw [← behind] at found
      obtain ⟨here, same⟩ := readAt?_drop_eq_some_iff.mp found
      exact .cons here (inductionHypothesis same.symm)
  | case3 char rest missed inductionHypothesis =>
      have next : text.drop (start + 1) = rest := by rw [← List.tail_drop, behind, List.tail_cons]
      rw [← behind] at missed
      exact .of_passed missed (inductionHypothesis next)

end LeftmostFrom

theorem leftmost_iff : rule.Leftmost text found ↔ found = rule.occurrences text := by
  have searched : rule.Leftmost text (rule.occurrences text) := .ofPieces List.drop_zero
  constructor
  · exact fun leftmost => leftmost.unique searched
  · exact fun same => same ▸ searched

end

variable (rule : Rule) (text : List Char)

theorem map_reading_occurrences :
    (rule.occurrences text).map Occurrence.reading = rule.readings text :=
  Occurrence.map_reading_ofPieces 0 (rule.pieces text)

theorem splice_occurrences (write : Reading → List Char) :
    Occurrence.splice write text 0 (rule.occurrences text) =
      (rule.pieces text).flatMap (Piece.write write) :=
  Occurrence.splice_ofPieces (rule.flatMap_text_pieces text)

theorem occursIn_eq_false_iff : rule.occursIn text = false ↔ rule.occurrences text = [] := by
  rw [occursIn, Bool.not_eq_false', List.isEmpty_iff, ← map_reading_occurrences,
    List.map_eq_nil_iff]

/-- What a rule finds and rewrites.  No form can be read from a place in two ways, and the reader
reads it wherever it occurs.  The occurrences are the only list of them from left to right in
which no two overlap and beside which none starts.  With what stands between them they are the
text; the rule gives them their extension, and leaves a text without any of them alone. -/
theorem occurrences_leftmost :
    (∀ start first second, rule.OccursAt text ⟨start, first⟩ →
      rule.OccursAt text ⟨start, second⟩ → first = second) ∧
    (∀ start reading behind, rule.readAt? (text.drop start) = some (reading, behind) ↔
      rule.OccursAt text ⟨start, reading⟩ ∧ behind = text.drop (start + reading.text.length)) ∧
    (∀ found, rule.Leftmost text found ↔ found = rule.occurrences text) ∧
    (rule.occurrences text).map Occurrence.reading = rule.readings text ∧
    Occurrence.splice (fun reading => reading.head ++ reading.specifier ++ reading.tail) text 0
      (rule.occurrences text) = text ∧
    ∀ extension, rule.extend? extension text =
      if rule.occurrences text = [] then none
      else some (Occurrence.splice (fun reading =>
        reading.head ++ Specifier.extend extension reading.specifier ++ reading.tail) text 0
          (rule.occurrences text)) := by
  refine ⟨fun _ _ _ => OccursAt.reading_unique, fun _ _ _ => readAt?_drop_eq_some_iff,
    fun _ => leftmost_iff, rule.map_reading_occurrences text, ?_, ?_⟩
  · have whole := rule.splice_occurrences text Reading.text
    rw [Piece.write_text, flatMap_text_pieces] at whole
    exact whole
  · intro extension
    have written := rule.splice_occurrences text fun reading => (reading.extend extension).text
    rw [Piece.write_extend] at written
    unfold extend?
    cases occurs : rule.occursIn text with
    | false =>
        have absent := (rule.occursIn_eq_false_iff text).mp occurs
        rw [if_pos absent]
        rfl
    | true =>
        have present : rule.occurrences text ≠ [] := by
          intro absent
          rw [(rule.occursIn_eq_false_iff text).mpr absent] at occurs
          cases occurs
        rw [if_neg present]
        exact congrArg some written.symm

/-- The form also occurs from the eighth character on, but within the occurrence that is found. -/
example :
    let text := "from './from './util'".toList
    importFrom.occurrences text =
        [⟨0, "from '".toList, "./from ".toList, "'".toList⟩] ∧
      (importFrom.readAt? (text.drop 8)).isSome := by decide +kernel

end Rule

end ImportSuffix.Specifier
