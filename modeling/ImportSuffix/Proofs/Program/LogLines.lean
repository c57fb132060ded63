import ImportSuffix.Message
import ImportSuffix.Proofs.Survey.Skipped

/-!
The log as it is printed.

A record is meant to be one line, but there are characters that break it.  A line feed begins a
further line, and what a terminal obeys is taken out, together with what then belongs to it,
which can be the end of the line.  So a text can be read on one line of the log exactly if it is
free of such characters.
-/

namespace ImportSuffix

open Text

namespace Text

namespace TerminalState

theorem isVisible_of_isLayout {char : Char} (layout : isLayout char = true) :
    isVisible char = true := by
  rw [isVisible, layout, Bool.true_or]

theorem isVisible_of_shows {state : TerminalState} {char : Char}
    (shown : state.shows char = true) : isVisible char = true := by
  cases state with
  | ground => exact shown
  | escape | intermediate | parameters => exact isVisible_of_isLayout shown
  | device | deviceParameters | deviceIntermediate | command | string => cases shown

/-- Whatever is left of a text is visible. -/
theorem isVisible_of_mem_shown {resumes passing : Bool} {state : TerminalState}
    {text : List Char} {char : Char} (left : char ∈ shown resumes passing state text) :
    isVisible char = true := by
  induction text generalizing passing state with
  | nil => cases left
  | cons first rest inductionHypothesis =>
      rw [shown] at left
      split at left
      next visible =>
        rcases List.mem_cons.mp left with same | later
        · rw [same]
          exact (Bool.and_eq_true_iff.mp visible).2
        · exact inductionHypothesis later
      next =>
        split at left
        next shows =>
          rcases List.mem_cons.mp left with same | later
          · rw [same]
            exact isVisible_of_shows shows
          · exact inductionHypothesis later
        next => exact inductionHypothesis left

end TerminalState

/-- Characters that a line of the log does not survive: the control characters of ASCII, line
feed included, but for the tab, the form feed and the carriage return. -/
def breaksLine (char : Char) : Bool :=
  (char < ' ' && char != '\t' && char != '\x0C' && char != '\r') || char == '\x7F'

theorem breaksLine_eq_false_iff {char : Char} :
    breaksLine char = false ↔ char ≠ '\n' ∧ TerminalState.isVisible char = true := by
  cases layout : TerminalState.isLayout char with
  | true =>
      simp only [TerminalState.isLayout, Bool.or_eq_true, beq_iff_eq] at layout
      rcases layout with ((rfl | rfl) | rfl) | rfl <;> decide
  | false =>
      have others := layout
      simp only [TerminalState.isLayout, Bool.or_eq_false_iff, beq_eq_false_iff_ne] at others
      obtain ⟨⟨⟨noTab, noLineFeed⟩, noFormFeed⟩, noReturn⟩ := others
      simp [breaksLine, TerminalState.isVisible, layout, noTab, noLineFeed, noFormFeed, noReturn]

/-- Text that can stand on a line of the log. -/
def Unbroken (text : String) : Prop := ∀ char ∈ text.toList, breaksLine char = false

instance (text : String) : Decidable (Unbroken text) :=
  decidable_of_iff (text.toList.any breaksLine = false) (by simp [Unbroken])

theorem unbroken_append_iff {front back : String} :
    Unbroken (front ++ back) ↔ Unbroken front ∧ Unbroken back := by
  simp only [Unbroken, String.toList_append, List.forall_mem_append]

theorem infix_append_left (front text : String) : text.toList <:+: (front ++ text).toList := by
  rw [String.toList_append]
  exact (List.suffix_append _ _).isInfix

theorem infix_append_right (text back : String) : text.toList <:+: (text ++ back).toList := by
  rw [String.toList_append]
  exact (List.prefix_append _ _).isInfix

theorem Unbroken.lineFeed_not_mem {text : String} (unbroken : Unbroken text) :
    '\n' ∉ text.toList :=
  fun membership => (breaksLine_eq_false_iff.mp (unbroken '\n' membership)).1 rfl

end Text

theorem Record.unbroken_display {record : Record} (unbroken : Unbroken record.text) :
    Unbroken record.display := by
  have level : Unbroken (record.level.name ++ " ") := by cases record.level <;> decide
  exact unbroken_append_iff.mpr ⟨level, unbroken⟩

namespace Message

/-- Text without a line feed stands in the log as it is. -/
theorem indented_of_not_mem {text : String} (single : '\n' ∉ text.toList) :
    indented text = text := by
  have piece : text.toList.splitOn '\n' = [text.toList] := by
    apply List.splitOnP_eq_singleton
    intro char membership
    rw [beq_eq_false_iff_ne]
    intro isLineFeed
    exact single (isLineFeed ▸ membership)
  rw [indented, piece, List.map_singleton, String.ofList_toList]
  rfl

/-- What a message adds to the output is one line, on which some texts can be read. -/
def LineShows (message : Message) (texts : List String) : Prop :=
  ∃ line : String, message.output = line ++ "\n" ∧ '\n' ∉ line.toList ∧
    ∀ text ∈ texts, text.toList <:+: line.toList

section

variable {record : Record} {texts : List String}

/-- A record of unbroken text is printed as it is. -/
theorem output_log (unbroken : Unbroken record.text) :
    (log record).output = record.display ++ "\n" := by
  have line : (log record).text = record.display := by
    have whole : (log record).text = record.level.name ++ " " ++ indented record.text := rfl
    rw [whole, indented_of_not_mem unbroken.lineFeed_not_mem]
    rfl
  have visible : ∀ char ∈ (record.display ++ "\n").toList,
      TerminalState.isVisible char = true := by
    intro char membership
    rw [String.toList_append, List.mem_append] at membership
    rcases membership with inLine | atEnd
    · exact (breaksLine_eq_false_iff.mp (Record.unbroken_display unbroken char inLine)).2
    · rw [List.mem_singleton.mp atEnd]
      rfl
  have printed : (log record).output = plainOutput (record.display ++ "\n") := by
    rw [← line]
    rfl
  rw [printed, plainOutput, TerminalState.shown_ground true false _ visible,
    String.ofList_toList]

theorem lineShows_of_unbroken (unbroken : Unbroken record.text)
    (inside : ∀ text ∈ texts, text.toList <:+: record.display.toList) :
    (log record).LineShows texts :=
  ⟨record.display, output_log unbroken, (Record.unbroken_display unbroken).lineFeed_not_mem, inside⟩

/-- No line of the log shows a character that would break it. -/
theorem unbroken_of_lineShows (shows : (log record).LineShows texts) {text : String}
    (among : text ∈ texts) : Unbroken text := by
  obtain ⟨line, printed, single, inside⟩ := shows
  intro char membership
  have inLine : char ∈ line.toList := (inside text among).subset membership
  have left : char ∈ (plainOutput ((log record).text ++ "\n")).toList := by
    have filtered : plainOutput ((log record).text ++ "\n") = line ++ "\n" := printed
    rw [filtered, String.toList_append]
    exact List.mem_append_left _ inLine
  rw [plainOutput, String.toList_ofList] at left
  refine breaksLine_eq_false_iff.mpr ⟨?_, TerminalState.isVisible_of_mem_shown left⟩
  rintro rfl
  exact single inLine

/-- A record can be read on one line of the log exactly if its text has nothing that breaks it. -/
theorem lineShows_text_iff : (log record).LineShows [record.text] ↔ Unbroken record.text := by
  constructor
  · exact fun shows => unbroken_of_lineShows shows List.mem_cons_self
  · intro unbroken
    refine lineShows_of_unbroken unbroken ?_
    intro text among
    rw [List.mem_singleton.mp among]
    exact infix_append_left _ record.text

end

end Message

/-! Warnings -/

theorem Cause.RefusesPath.unbroken_message {cause : Cause} (refuses : cause.RefusesPath) :
    Unbroken cause.message := by
  cases refuses with
  | zero => decide +kernel
  | system error => cases error <;> decide +kernel

namespace Survey

variable {settings : Settings} {disk : Disk} {directory : SkippedDirectory}

theorem unbroken_reason_of_mem_skipped (skipped : directory ∈ (take settings disk).skipped) :
    Unbroken directory.reason.message := by
  rcases reason_of_mem_skipped_take skipped with same | ⟨cause, same, refuses⟩
  · rw [same]
    decide +kernel
  · rw [same]
    exact refuses.unbroken_message

/-- Nothing but the path can break the line of a warning. -/
theorem unbroken_skipping (skipped : directory ∈ (take settings disk).skipped)
    (unbroken : Unbroken directory.path.display) : Unbroken (Record.skipping directory).text := by
  have lead : Unbroken "Skipping non-existent or unreadable directory: " := by decide +kernel
  have opening : Unbroken " (" := by decide +kernel
  have closing : Unbroken ")" := by decide +kernel
  have opened : Unbroken (directory.path.display ++ " (") :=
    unbroken_append_iff.mpr ⟨unbroken, opening⟩
  have reasoned : Unbroken (directory.path.display ++ " (" ++ directory.reason.message) :=
    unbroken_append_iff.mpr ⟨opened, unbroken_reason_of_mem_skipped skipped⟩
  have shown : Unbroken directory.display := unbroken_append_iff.mpr ⟨reasoned, closing⟩
  exact unbroken_append_iff.mpr ⟨lead, shown⟩

/-- The warning about a skipped directory is one line that shows its path and the reason, exactly
if the path as it is shown has nothing that breaks a line. -/
theorem lineShows_skipping_iff (skipped : directory ∈ (take settings disk).skipped) :
    (Message.log (.skipping directory)).LineShows
        [directory.path.display, directory.reason.message] ↔
      Unbroken directory.path.display := by
  constructor
  · exact fun shows => Message.unbroken_of_lineShows shows List.mem_cons_self
  · intro unbroken
    refine Message.lineShows_of_unbroken (unbroken_skipping skipped unbroken) ?_
    have whole : directory.display.toList <:+: (Record.skipping directory).display.toList :=
      (infix_append_left _ directory.display).trans
        (infix_append_left _ (Record.skipping directory).text)
    have reasoned : (directory.path.display ++ " (" ++ directory.reason.message).toList <:+:
        directory.display.toList := infix_append_right _ _
    intro text among
    rcases List.mem_pair.mp among with rfl | rfl
    · have opened := infix_append_right directory.path.display " ("
      exact ((opened.trans (infix_append_right _ _)).trans reasoned).trans whole
    · exact ((infix_append_left _ _).trans reasoned).trans whole

end Survey

end ImportSuffix
