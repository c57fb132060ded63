import ImportSuffix.Specifier.Rule

/-!
Texts cut at their quotes.

Single and double quotes cut a text into segments, which are counted from zero.
Each text is one cut only, so a text whose segments change without getting quotes
of their own is cut at the same places as before.
-/

namespace ImportSuffix.Specifier

/-- A text cut at its quotes. -/
inductive Cut where
  | last (segment : List Char)
  | next (segment : List Char) (quote : Char) (rest : Cut)
  deriving DecidableEq, Repr

def Unquoted (text : List Char) : Prop := ∀ char ∈ text, isQuote char = false

theorem Unquoted.append {first second : List Char} (unquotedFirst : Unquoted first)
    (unquotedSecond : Unquoted second) : Unquoted (first ++ second) := by
  intro char membership
  rcases List.mem_append.mp membership with inFirst | inSecond
  · exact unquotedFirst char inFirst
  · exact unquotedSecond char inSecond

/-- The first character outside of a class splits a text in one way only. -/
theorem append_cons_inj_of_all (member : Char → Bool) {first second : List Char}
    {firstEnd secondEnd : Char} {firstRest secondRest : List Char}
    (membersFirst : ∀ char ∈ first, member char = true)
    (membersSecond : ∀ char ∈ second, member char = true)
    (endsFirst : member firstEnd = false) (endsSecond : member secondEnd = false)
    (same : first ++ firstEnd :: firstRest = second ++ secondEnd :: secondRest) :
    first = second ∧ firstEnd = secondEnd ∧ firstRest = secondRest := by
  have front : first = second := by
    have taken := congrArg (List.takeWhile member) same
    rw [List.takeWhile_append_of_pos membersFirst,
      List.takeWhile_append_of_pos membersSecond] at taken
    simpa [endsFirst, endsSecond] using taken
  subst front
  simpa using same

/-- What stands around the first quote of a text is determined by the text. -/
theorem Unquoted.split_inj {first second firstRest secondRest : List Char}
    {firstQuote secondQuote : Char}
    (unquotedFirst : Unquoted first) (unquotedSecond : Unquoted second)
    (quotedFirst : isQuote firstQuote = true) (quotedSecond : isQuote secondQuote = true)
    (same : first ++ firstQuote :: firstRest = second ++ secondQuote :: secondRest) :
    first = second ∧ firstQuote = secondQuote ∧ firstRest = secondRest := by
  apply append_cons_inj_of_all (fun char => !isQuote char) _ _ _ _ same
  · simpa [Unquoted] using unquotedFirst
  · simpa [Unquoted] using unquotedSecond
  · simp [quotedFirst]
  · simp [quotedSecond]

namespace Cut

def text : Cut → List Char
  | last segment => segment
  | next segment quote rest => segment ++ quote :: rest.text

def quotes : Cut → List Char
  | last _ => []
  | next _ quote rest => quote :: rest.quotes

/-- The number of quotes, which is that of the last segment. -/
def size : Cut → Nat
  | last _ => 0
  | next _ _ rest => rest.size + 1

/-- A segment by its number.  There is nothing behind the last one. -/
def segment : Cut → Nat → List Char
  | last segment, 0 => segment
  | last _, _ + 1 => []
  | next segment _ _, 0 => segment
  | next _ _ rest, index + 1 => rest.segment index

def push (char : Char) : Cut → Cut
  | last segment => last (char :: segment)
  | next segment quote rest => next (char :: segment) quote rest

def ofText : List Char → Cut
  | [] => last []
  | char :: rest => if isQuote char then next [] char (ofText rest) else (ofText rest).push char

def mapSegments (change : Nat → List Char → List Char) : Cut → Cut
  | last segment => last (change 0 segment)
  | next segment quote rest =>
      next (change 0 segment) quote (rest.mapSegments fun index => change (index + 1))

/-- Only the quotes between the segments are quotes. -/
inductive Proper : Cut → Prop where
  | last {segment} : Unquoted segment → Proper (last segment)
  | next {segment quote rest} :
      Unquoted segment → isQuote quote = true → Proper rest → Proper (next segment quote rest)

@[simp] theorem segment_last_succ (segment : List Char) (index : Nat) :
    (last segment).segment (index + 1) = [] := rfl

@[simp] theorem segment_next_zero (segment : List Char) (quote : Char) (rest : Cut) :
    (next segment quote rest).segment 0 = segment := rfl

@[simp] theorem segment_next_succ (segment : List Char) (quote : Char) (rest : Cut) (index : Nat) :
    (next segment quote rest).segment (index + 1) = rest.segment index := rfl

@[simp] theorem size_next (segment : List Char) (quote : Char) (rest : Cut) :
    (next segment quote rest).size = rest.size + 1 := rfl

@[simp] theorem text_push (char : Char) (cut : Cut) : (cut.push char).text = char :: cut.text := by
  cases cut <;> rfl

@[simp] theorem text_ofText (text : List Char) : (ofText text).text = text := by
  induction text with
  | nil => rfl
  | cons char rest inductionHypothesis =>
      unfold ofText
      split
      · simp [Cut.text, inductionHypothesis]
      · simp [inductionHypothesis]

theorem Proper.rest {segment : List Char} {quote : Char} {rest : Cut}
    (proper : (Cut.next segment quote rest).Proper) : rest.Proper := by
  cases proper with
  | next _ _ properRest => exact properRest

theorem Proper.push {cut : Cut} {char : Char} (proper : cut.Proper)
    (unquoted : isQuote char = false) : (cut.push char).Proper := by
  have front {segment : List Char} (others : Unquoted segment) : Unquoted (char :: segment) := by
    intro other membership
    rcases List.mem_cons.mp membership with rfl | inSegment
    · exact unquoted
    · exact others other inSegment
  cases proper with
  | last segment => exact .last (front segment)
  | next segment quoted rest => exact .next (front segment) quoted rest

theorem proper_ofText (text : List Char) : (ofText text).Proper := by
  induction text with
  | nil => exact .last (by simp [Unquoted])
  | cons char rest inductionHypothesis =>
      unfold ofText
      split
      next quoted => exact .next (by simp [Unquoted]) quoted inductionHypothesis
      next unquoted => exact inductionHypothesis.push (by simpa using unquoted)

theorem Proper.eq_of_text_eq {first second : Cut} (properFirst : first.Proper)
    (properSecond : second.Proper) (same : first.text = second.text) : first = second := by
  have unquoted_ne {segment other rest : List Char} {quote : Char} (unquoted : Unquoted segment)
      (quoted : isQuote quote = true) : segment ≠ other ++ quote :: rest := by
    rintro rfl
    have inside := unquoted quote (by simp)
    rw [quoted] at inside
    cases inside
  induction properFirst generalizing second with
  | last unquoted =>
      cases properSecond with
      | last => exact congrArg Cut.last same
      | next _ quoted _ => exact absurd same (unquoted_ne unquoted quoted)
  | next unquoted quoted _ inductionHypothesis =>
      cases properSecond with
      | last unquotedSecond => exact absurd same.symm (unquoted_ne unquotedSecond quoted)
      | next unquotedSecond quotedSecond properRest =>
          obtain ⟨rfl, rfl, sameRest⟩ :=
            unquoted.split_inj unquotedSecond quoted quotedSecond same
          rw [inductionHypothesis properRest sameRest]

/-- Cutting finds the segments of which a text was made. -/
theorem Proper.ofText_text {cut : Cut} (proper : cut.Proper) : ofText cut.text = cut :=
  (proper_ofText cut.text).eq_of_text_eq proper (text_ofText cut.text)

theorem Proper.unquoted_segment {cut : Cut} (proper : cut.Proper) (index : Nat) :
    Unquoted (cut.segment index) := by
  induction proper generalizing index with
  | last unquoted =>
      cases index with
      | zero => exact unquoted
      | succ index => simp [Unquoted]
  | next unquoted _ _ inductionHypothesis =>
      cases index with
      | zero => exact unquoted
      | succ index => exact inductionHypothesis index

theorem segment_eq_nil_of_size_lt {cut : Cut} {index : Nat} (behind : cut.size < index) :
    cut.segment index = [] := by
  induction cut generalizing index with
  | last segment =>
      cases index with
      | zero => cases behind
      | succ index => rfl
  | next segment quote rest inductionHypothesis =>
      cases index with
      | zero => cases behind
      | succ index => exact inductionHypothesis (Nat.lt_of_succ_lt_succ behind)

@[simp] theorem size_mapSegments (change : Nat → List Char → List Char) (cut : Cut) :
    (cut.mapSegments change).size = cut.size := by
  induction cut generalizing change with
  | last segment => rfl
  | next segment quote rest inductionHypothesis =>
      simp [mapSegments, inductionHypothesis]

@[simp] theorem quotes_mapSegments (change : Nat → List Char → List Char) (cut : Cut) :
    (cut.mapSegments change).quotes = cut.quotes := by
  induction cut generalizing change with
  | last segment => rfl
  | next segment quote rest inductionHypothesis =>
      simp [mapSegments, quotes, inductionHypothesis]

theorem segment_mapSegments (change : Nat → List Char → List Char) {cut : Cut} {index : Nat}
    (exists_ : index ≤ cut.size) :
    (cut.mapSegments change).segment index = change index (cut.segment index) := by
  induction cut generalizing change index with
  | last segment =>
      cases index with
      | zero => rfl
      | succ index => cases exists_
  | next segment quote rest inductionHypothesis =>
      cases index with
      | zero => rfl
      | succ index => exact inductionHypothesis _ (Nat.le_of_succ_le_succ exists_)

theorem mapSegments_congr {first second : Nat → List Char → List Char} {cut : Cut}
    (same : ∀ index, index ≤ cut.size →
      first index (cut.segment index) = second index (cut.segment index)) :
    cut.mapSegments first = cut.mapSegments second := by
  induction cut generalizing first second with
  | last segment => exact congrArg last (same 0 (Nat.le_refl 0))
  | next segment quote rest inductionHypothesis =>
      have front := same 0 (Nat.zero_le _)
      have others := inductionHypothesis fun index inside =>
        same (index + 1) (Nat.succ_le_succ inside)
      simp only [mapSegments]
      rw [others]
      exact congrArg (next · quote _) front

@[simp] theorem mapSegments_id (cut : Cut) : cut.mapSegments (fun _ segment => segment) = cut := by
  induction cut with
  | last segment => rfl
  | next segment quote rest inductionHypothesis => simp [mapSegments, inductionHypothesis]

theorem Proper.mapSegments {change : Nat → List Char → List Char} {cut : Cut}
    (proper : cut.Proper)
    (unquoted : ∀ index segment, Unquoted segment → Unquoted (change index segment)) :
    (cut.mapSegments change).Proper := by
  induction proper generalizing change with
  | last segment => exact .last (unquoted 0 _ segment)
  | next segment quoted _ inductionHypothesis =>
      exact .next (unquoted 0 _ segment) quoted
        (inductionHypothesis fun index => unquoted (index + 1))

end Cut

end ImportSuffix.Specifier
