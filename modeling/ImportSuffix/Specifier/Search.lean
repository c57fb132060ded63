import ImportSuffix.Specifier.Rule

/-!
Reading a form at one place of a text, and the search for all its occurrences.

`Rule.readAt?` reads the form at the beginning of a text.  `Rule.pieces` goes
through the text from left to right: where the form can be read it is, and the
search goes on behind it; every other character is kept by itself.  So the
occurrences are the leftmost ones and do not overlap.
-/

namespace ImportSuffix.Specifier

open Text

/-- The text behind a given start, if the text begins with it. -/
def after? : (start text : List Char) → Option (List Char)
  | [], text => some text
  | _ :: _, [] => none
  | expected :: start, char :: text => if char = expected then after? start text else none

/-- Read characters of a class, at least one and as many as there are. -/
def readWhile? (member : Char → Bool) (text : List Char) : Option (List Char × List Char) :=
  match text.takeWhile member with
  | [] => none
  | taken => some (taken, text.dropWhile member)

def readQuote? : List Char → Option (Char × List Char)
  | [] => none
  | char :: rest => if isQuote char then some (char, rest) else none

theorem after?_eq_some_iff {start text rest : List Char} :
    after? start text = some rest ↔ text = start ++ rest := by
  induction start generalizing text with
  | nil => simp [after?]
  | cons expected start inductionHypothesis =>
      cases text with
      | nil => simp [after?]
      | cons char text => simp [after?, inductionHypothesis]

@[simp] theorem after?_append (start rest : List Char) :
    after? start (start ++ rest) = some rest := after?_eq_some_iff.mpr rfl

theorem readWhile?_eq_some {member : Char → Bool} {text taken rest : List Char}
    (found : readWhile? member text = some (taken, rest)) : text = taken ++ rest := by
  unfold readWhile? at found
  split at found
  · cases found
  · cases found
    exact (List.takeWhile_append_dropWhile).symm

theorem readQuote?_eq_some {text rest : List Char} {quote : Char}
    (found : readQuote? text = some (quote, rest)) : text = quote :: rest := by
  cases text with
  | nil => cases found
  | cons char tail =>
      simp only [readQuote?, Option.ite_none_right_eq_some, Option.some.injEq,
        Prod.mk.injEq] at found
      obtain ⟨_, rfl, rfl⟩ := found
      rfl

namespace Rule

/-- The blanks between the keyword and the quote, and what follows them. -/
def readBlanks? : Rule → List Char → Option (List Char × List Char)
  | importFrom, text => readWhile? isBlank text
  | requireCall, text => some ([], text)

def readHead? (rule : Rule) (text : List Char) : Option (List Char × List Char) := do
  let afterKeyword ← after? rule.keyword text
  let (blanks, afterBlanks) ← rule.readBlanks? afterKeyword
  let (quote, rest) ← readQuote? afterBlanks
  return (rule.keyword ++ blanks ++ [quote], rest)

/-- Read a relative specifier up to the first character that it cannot hold. -/
def readSpecifier? (rule : Rule) (text : List Char) : Option (List Char × List Char) := do
  let afterStart ← after? relativeStart text
  let (body, rest) ← readWhile? rule.allows afterStart
  return (relativeStart ++ body, rest)

def readTail? (rule : Rule) (text : List Char) : Option (List Char × List Char) := do
  let (quote, afterQuote) ← readQuote? text
  let rest ← after? rule.closing afterQuote
  return (quote :: rule.closing, rest)

/-- Read the form at the beginning of a text; the second part is the text
behind it.  A quote is neither a blank nor part of a specifier, so reading as
far as possible loses nothing. -/
def readAt? (rule : Rule) (text : List Char) : Option (Reading × List Char) := do
  let (head, afterHead) ← rule.readHead? text
  let (specifier, afterSpecifier) ← rule.readSpecifier? afterHead
  let (tail, rest) ← rule.readTail? afterSpecifier
  return (⟨head, specifier, tail⟩, rest)

theorem readBlanks?_eq_some {rule : Rule} {text blanks rest : List Char}
    (found : rule.readBlanks? text = some (blanks, rest)) : text = blanks ++ rest := by
  cases rule with
  | importFrom => exact readWhile?_eq_some found
  | requireCall => cases found; rfl

theorem readHead?_eq_some {rule : Rule} {text head rest : List Char}
    (found : rule.readHead? text = some (head, rest)) : text = head ++ rest := by
  simp only [readHead?, Option.bind_eq_bind, Option.bind_eq_some_iff, Prod.exists,
    Option.pure_def, Option.some.injEq, Prod.mk.injEq] at found
  obtain ⟨_, keyword, _, _, blanks, _, _, quote, rfl, rfl⟩ := found
  simp [after?_eq_some_iff.mp keyword, readBlanks?_eq_some blanks, readQuote?_eq_some quote]

theorem readSpecifier?_eq_some {rule : Rule} {text specifier rest : List Char}
    (found : rule.readSpecifier? text = some (specifier, rest)) :
    text = specifier ++ rest := by
  simp only [readSpecifier?, Option.bind_eq_bind, Option.bind_eq_some_iff, Prod.exists,
    Option.pure_def, Option.some.injEq, Prod.mk.injEq] at found
  obtain ⟨_, start, _, _, body, rfl, rfl⟩ := found
  simp [after?_eq_some_iff.mp start, readWhile?_eq_some body]

theorem readTail?_eq_some {rule : Rule} {text tail rest : List Char}
    (found : rule.readTail? text = some (tail, rest)) : text = tail ++ rest := by
  simp only [readTail?, Option.bind_eq_bind, Option.bind_eq_some_iff, Prod.exists,
    Option.pure_def, Option.some.injEq, Prod.mk.injEq] at found
  obtain ⟨_, _, quote, _, closing, rfl, rfl⟩ := found
  simp [readQuote?_eq_some quote, after?_eq_some_iff.mp closing]

theorem readAt?_eq_some {rule : Rule} {text rest : List Char} {reading : Reading}
    (found : rule.readAt? text = some (reading, rest)) : text = reading.text ++ rest := by
  simp only [readAt?, Option.bind_eq_bind, Option.bind_eq_some_iff, Prod.exists,
    Option.pure_def, Option.some.injEq, Prod.mk.injEq] at found
  obtain ⟨_, _, head, _, _, specifier, _, _, tail, rfl, rfl⟩ := found
  simp [Reading.text, readHead?_eq_some head, readSpecifier?_eq_some specifier,
    readTail?_eq_some tail]

theorem readHead?_ne_nil {rule : Rule} {text head rest : List Char}
    (found : rule.readHead? text = some (head, rest)) : head ≠ [] := by
  simp only [readHead?, Option.bind_eq_bind, Option.bind_eq_some_iff, Prod.exists,
    Option.pure_def, Option.some.injEq, Prod.mk.injEq] at found
  obtain ⟨_, _, _, _, _, _, _, _, rfl, _⟩ := found
  simp

theorem length_lt_of_readAt? {rule : Rule} {text rest : List Char} {reading : Reading}
    (found : rule.readAt? text = some (reading, rest)) : rest.length < text.length := by
  have whole := readAt?_eq_some found
  simp only [readAt?, Option.bind_eq_bind, Option.bind_eq_some_iff, Prod.exists,
    Option.pure_def, Option.some.injEq, Prod.mk.injEq] at found
  obtain ⟨head, _, found, _, _, _, _, _, _, rfl, rfl⟩ := found
  have := List.length_pos_iff.mpr (readHead?_ne_nil found)
  simp only [whole, Reading.text, List.length_append]
  omega

end Rule

/-- A part of a searched text. -/
inductive Piece where
  /-- A character at which the form cannot be read. -/
  | plain (char : Char)
  /-- An occurrence of the form. -/
  | found (reading : Reading)
  deriving DecidableEq, Repr

namespace Piece

def text : Piece → List Char
  | plain char => [char]
  | found reading => reading.text

def reading? : Piece → Option Reading
  | plain _ => none
  | found reading => some reading

end Piece

namespace Rule

/-- Cut a text into the occurrences of the form and single characters. -/
def pieces (rule : Rule) : List Char → List Piece
  | [] => []
  | char :: rest =>
      match _found : rule.readAt? (char :: rest) with
      | some (reading, afterReading) => .found reading :: rule.pieces afterReading
      | none => .plain char :: rule.pieces rest
termination_by text => text.length
decreasing_by
  · exact length_lt_of_readAt? _found
  · exact Nat.lt_succ_self _

def readings (rule : Rule) (text : List Char) : List Reading :=
  (rule.pieces text).filterMap Piece.reading?

theorem flatMap_text_pieces (rule : Rule) (text : List Char) :
    (rule.pieces text).flatMap Piece.text = text := by
  fun_induction pieces rule text with
  | case1 => rfl
  | case2 char rest reading afterReading found inductionHypothesis =>
      simp [Piece.text, inductionHypothesis, readAt?_eq_some found]
  | case3 char rest _ inductionHypothesis => simp [Piece.text, inductionHypothesis]

end Rule

end ImportSuffix.Specifier
