import ImportSuffix.Proofs.Specifier.FixedPoint

/-!
Texts that consist of statements.

Where no reading of a form comes over the border between two texts, the form occurs in
both together as it does in each of them.  Behind a semicolon and a line feed this is so
for both forms, whatever stands before, so no statement can disturb a later one.
-/

namespace ImportSuffix.Specifier

open Text

namespace Rule

/-- Nothing that the text begins with is the end of a reading, so no reading comes into it
from what stands before. -/
def Detached (rule : Rule) (text : List Char) : Prop :=
  ∀ reading lead, rule.Reads reading → lead ≠ [] → lead <+: text → ¬lead <:+ reading.text

/-- No reading begins in the first text and ends in the second. -/
def Apart (rule : Rule) (front back : List Char) : Prop :=
  ∀ reading start lead, rule.Reads reading → reading.text = start ++ lead → start ≠ [] →
    start <:+ front → lead <+: back → lead = []

section

variable {rule : Rule} {front back behind : List Char} {reading : Reading}

theorem Detached.apart (detached : rule.Detached back) (front : List Char) :
    rule.Apart front back := by
  intro reading start lead grammatical whole _ _ begins
  by_cases nothing : lead = []
  · exact nothing
  · exact absurd ⟨start, whole.symm⟩ (detached reading lead grammatical nothing begins)

theorem Apart.suffix {ending : List Char} (apart : rule.Apart front back)
    (ends : ending <:+ front) : rule.Apart ending back := by
  intro reading start lead grammatical whole present inEnding
  exact apart reading start lead grammatical whole present (inEnding.trans ends)

theorem readAt?_append_of_readAt? (found : rule.readAt? front = some (reading, behind))
    (back : List Char) : rule.readAt? (front ++ back) = some (reading, behind ++ back) := by
  obtain ⟨rfl, grammatical⟩ := readAt?_eq_some_iff.mp found
  exact readAt?_eq_some_iff.mpr ⟨List.append_assoc _ _ _, grammatical⟩

theorem readAt?_append_eq_none (apart : rule.Apart front back) (present : front ≠ [])
    (missed : rule.readAt? front = none) : rule.readAt? (front ++ back) = none := by
  cases read : rule.readAt? (front ++ back) with
  | none => rfl
  | some result =>
      obtain ⟨reading, behind⟩ := result
      obtain ⟨whole, grammatical⟩ := readAt?_eq_some_iff.mp read
      have notWithin : ∀ rest, front ≠ reading.text ++ rest := by
        intro rest same
        rw [readAt?_eq_some_iff.mpr ⟨same, grammatical⟩] at missed
        cases missed
      rcases List.append_eq_append_iff.mp whole with ⟨lead, overlap, backText⟩ | ⟨rest, within, _⟩
      · -- What the reading takes of the second text is nothing.
        obtain rfl := apart reading front lead grammatical overlap present (List.suffix_refl _)
          ⟨behind, backText.symm⟩
        exact absurd (by simpa using overlap.symm) (notWithin [])
      · exact absurd within (notWithin rest)

/-- The search goes through both texts as it goes through each of them. -/
theorem pieces_append (apart : rule.Apart front back) :
    rule.pieces (front ++ back) = rule.pieces front ++ rule.pieces back := by
  fun_induction pieces rule front with
  | case1 => rfl
  | case2 char rest reading behind found inductionHypothesis =>
      have ends : behind <:+ char :: rest :=
        ⟨reading.text, (readAt?_eq_some_iff.mp found).1.symm⟩
      rw [pieces_of_readAt? (readAt?_append_of_readAt? found back),
        inductionHypothesis (apart.suffix ends)]
      rfl
  | case3 char rest missed inductionHypothesis =>
      have unread := readAt?_append_eq_none apart (by simp) missed
      rw [List.cons_append] at unread ⊢
      rw [pieces_cons_of_readAt?_eq_none unread,
        inductionHypothesis (apart.suffix (List.suffix_cons char rest))]
      rfl

theorem extend_append (apart : rule.Apart front back) (extension : List Char) :
    rule.extend extension (front ++ back) =
      rule.extend extension front ++ rule.extend extension back := by
  rw [Rule.extend, pieces_append apart, List.flatMap_append]
  rfl

/-- The form cannot be read from a character that does not begin its keyword. -/
theorem extend_cons {char : Char} (foreign : rule.keyword.head? ≠ some char)
    (extension rest : List Char) :
    rule.extend extension (char :: rest) = char :: rule.extend extension rest := by
  have unread : rule.readAt? (char :: rest) = none := by
    cases rule <;> simp_all [readAt?, readHead?, after?, keyword, eq_comm]
  rw [Rule.extend, pieces_cons_of_readAt?_eq_none unread]
  rfl

end

/-- A reading consists of what its grammar allows. -/
theorem Reads.mem_text {rule : Rule} {reading : Reading} (grammatical : rule.Reads reading)
    {char : Char} (membership : char ∈ reading.text) :
    char ∈ rule.keyword ∨ (∃ blanks, rule.Gap blanks ∧ char ∈ blanks) ∨ isQuote char = true ∨
      rule.allows char = true ∨ char ∈ rule.closing := by
  obtain ⟨blanks, opening, gap, quotedOpening, headText⟩ := head_iff.mp grammatical.head
  obtain ⟨close, quotedClose, tailText⟩ := grammatical.tail
  simp only [Reading.text, headText, tailText, List.mem_append, List.mem_cons, List.not_mem_nil,
    or_false] at membership
  rcases membership with (((inKeyword | inBlanks) | rfl) | inSpecifier) | rfl | inClosing
  · exact .inl inKeyword
  · exact .inr (.inl ⟨blanks, gap, inBlanks⟩)
  · exact .inr (.inr (.inl quotedOpening))
  · exact .inr (.inr (.inr (.inl ((body_iff.mp grammatical.specifier).2.2 char inSpecifier))))
  · exact .inr (.inr (.inl quotedClose))
  · exact .inr (.inr (.inr (.inr inClosing)))

theorem Reads.semicolon_not_mem_text {reading : Reading}
    (grammatical : Rule.importFrom.Reads reading) : ';' ∉ reading.text := by
  intro membership
  rcases grammatical.mem_text membership with
    inKeyword | ⟨blanks, gap, inBlanks⟩ | quoted | allowed | inClosing
  · simp [keyword] at inKeyword
  · exact absurd (gap.2 _ inBlanks) (by decide)
  · cases quoted
  · cases allowed
  · cases inClosing

theorem Reads.lineFeed_not_mem_text {reading : Reading}
    (grammatical : Rule.requireCall.Reads reading) : '\n' ∉ reading.text := by
  intro membership
  rcases grammatical.mem_text membership with
    inKeyword | ⟨blanks, gap, inBlanks⟩ | quoted | allowed | inClosing
  · simp [keyword] at inKeyword
  · obtain rfl : blanks = [] := gap
    cases inBlanks
  · cases quoted
  · cases allowed
  · simp [closing] at inClosing

theorem Reads.getLast?_text {reading : Reading} (grammatical : Rule.requireCall.Reads reading) :
    reading.text.getLast? = some ')' := by
  obtain ⟨close, _, tailText⟩ := grammatical.tail
  simp [Reading.text, tailText, closing]

/-- A text that begins with a character of no reading is detached. -/
theorem detached_of_not_mem {rule : Rule} {char : Char}
    (foreign : ∀ reading, rule.Reads reading → char ∉ reading.text) (rest : List Char) :
    rule.Detached (char :: rest) := by
  rintro reading lead grammatical nonempty ⟨behind, whole⟩ ends
  obtain ⟨_, others, rfl⟩ := List.exists_cons_of_ne_nil nonempty
  obtain ⟨rfl, _⟩ := List.cons.inj whole
  exact foreign reading grammatical (ends.subset List.mem_cons_self)

/-- Calls do not end in a semicolon, and do not go on over the line feed behind it. -/
theorem detached_requireCall_semicolon (rest : List Char) :
    Rule.requireCall.Detached (';' :: '\n' :: rest) := by
  rintro reading lead grammatical nonempty ⟨behind, whole⟩ ends
  obtain ⟨_, others, rfl⟩ := List.exists_cons_of_ne_nil nonempty
  obtain ⟨rfl, wholeOthers⟩ := List.cons.inj whole
  cases others with
  | nil =>
      obtain ⟨front, readingText⟩ := ends
      have last := grammatical.getLast?_text
      simp [← readingText] at last
  | cons next others =>
      obtain ⟨rfl, _⟩ := List.cons.inj wholeOthers
      exact grammatical.lineFeed_not_mem_text (ends.subset (by simp))

theorem importFrom_extend_semicolon (extension front back : List Char) :
    Rule.importFrom.extend extension (front ++ ';' :: back) =
      Rule.importFrom.extend extension front ++ ';' :: Rule.importFrom.extend extension back := by
  have detached := detached_of_not_mem (fun _ => Reads.semicolon_not_mem_text) back
  rw [extend_append (detached.apart front), extend_cons (by decide)]

theorem requireCall_extend_lineFeed (extension front back : List Char) :
    Rule.requireCall.extend extension (front ++ '\n' :: back) =
      Rule.requireCall.extend extension front ++ '\n' :: Rule.requireCall.extend extension back := by
  have detached := detached_of_not_mem (fun _ => Reads.lineFeed_not_mem_text) back
  rw [extend_append (detached.apart front), extend_cons (by decide)]

/-- A semicolon and a line feed end a statement, for either rule. -/
theorem extend_statements (rule : Rule) (extension front back : List Char) :
    rule.extend extension (front ++ ';' :: '\n' :: back) =
      rule.extend extension front ++ ';' :: '\n' :: rule.extend extension back := by
  cases rule with
  | importFrom => rw [importFrom_extend_semicolon, extend_cons (by decide)]
  | requireCall =>
      have detached := detached_requireCall_semicolon back
      rw [extend_append (detached.apart front), extend_cons (by decide), extend_cons (by decide)]

end Rule

/-- What every rule leaves between two texts stays between them under all rules. -/
theorem applyRules_append {extension between : List Char} {rules : List Rule}
    (kept : ∀ rule ∈ rules, ∀ front back, rule.extend extension (front ++ between ++ back) =
      rule.extend extension front ++ between ++ rule.extend extension back)
    (front back : List Char) :
    (applyRules extension rules (front ++ between ++ back)).1 =
      (applyRules extension rules front).1 ++ between ++ (applyRules extension rules back).1 := by
  induction rules generalizing front back with
  | nil => rfl
  | cons rule rules inductionHypothesis =>
      have keptLater := fun other membership => kept other (List.mem_cons_of_mem rule membership)
      rw [applyRules_cons, applyRules_cons, applyRules_cons, kept rule List.mem_cons_self,
        inductionHypothesis keptLater]

theorem Extender.apply_append {extender : Extender} {between : String}
    (kept : ∀ rule ∈ extender.rules, ∀ front back,
      rule.extend extender.extension.toList (front ++ between.toList ++ back) =
        rule.extend extender.extension.toList front ++ between.toList ++
          rule.extend extender.extension.toList back)
    (first second : String) :
    (extender.apply (first ++ between ++ second)).text =
      (extender.apply first).text ++ between ++ (extender.apply second).text := by
  simp only [Extender.apply, String.toList_append, applyRules_append kept, String.ofList_append,
    String.ofList_toList]

/-- Statements are extended one by one: a semicolon and a line feed between two texts keep
all rules apart, a semicolon alone the import rule, and a line feed alone the call rule. -/
theorem Extender.apply_statements (extension first second : String) :
    (∀ rules, ((Extender.mk rules extension).apply (first ++ ";\n" ++ second)).text =
      ((Extender.mk rules extension).apply first).text ++ ";\n" ++
        ((Extender.mk rules extension).apply second).text) ∧
    ((Extender.mk [.importFrom] extension).apply (first ++ ";" ++ second)).text =
      ((Extender.mk [.importFrom] extension).apply first).text ++ ";" ++
        ((Extender.mk [.importFrom] extension).apply second).text ∧
    ((Extender.mk [.requireCall] extension).apply (first ++ "\n" ++ second)).text =
      ((Extender.mk [.requireCall] extension).apply first).text ++ "\n" ++
        ((Extender.mk [.requireCall] extension).apply second).text := by
  refine ⟨fun rules => ?_, ?_, ?_⟩
  · apply Extender.apply_append
    intro rule _ front back
    simpa using rule.extend_statements extension.toList front back
  · apply Extender.apply_append
    intro rule membership front back
    obtain rfl := List.mem_singleton.mp membership
    simpa using Rule.importFrom_extend_semicolon extension.toList front back
  · apply Extender.apply_append
    intro rule membership front back
    obtain rfl := List.mem_singleton.mp membership
    simpa using Rule.requireCall_extend_lineFeed extension.toList front back

/-- A line feed alone ends no import: it may stand between the keyword and the quote. -/
example : ((Extender.mk [.importFrom] ".js").apply "from\n'./a'").text = "from\n'./a.js'" := by
  decide +kernel

end ImportSuffix.Specifier
