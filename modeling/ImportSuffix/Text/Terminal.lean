import ImportSuffix.Text.Utf8

/-!
Text without what a terminal would obey.

Control characters and escape sequences are taken out of a text, so that names
from outside cannot move the cursor or change colours.  White space stays, also
within a sequence.  `plain` is for a text on its own and `plainOutput` for what is
written to an output stream; they differ in how they go on behind white space
within a sequence.
-/

namespace ImportSuffix.Text

/-- Where a reader of terminal output stands: outside of all sequences, behind the
escape character, in front of the last character of an escape or a control sequence,
at the head of a device control string, or in a string.  A command is a string that
also ends with a bell. -/
inductive TerminalState where
  | ground
  | escape
  | intermediate
  | parameters
  | device
  | deviceParameters
  | deviceIntermediate
  | command
  | string
  deriving DecidableEq, Repr

namespace TerminalState

/-- Control characters that only move on, and so are part of a text. -/
def isLayout (char : Char) : Bool :=
  char == '\t' || char == '\n' || char == '\x0C' || char == '\r'

/-- Whether a character is shown outside of all sequences. -/
def isVisible (char : Char) : Bool :=
  isLayout char || (' ' ≤ char && char != '\x7F')

/-- The byte that ends a string.  It does so within a longer character as well,
since strings are read byte by byte. -/
def terminator : UInt8 := 0x9C

def endsString (char : Char) : Bool := (encode (String.singleton char)).contains terminator

def afterEscape (char : Char) : TerminalState :=
  if char == '[' then parameters
  else if char == ']' then command
  else if char == 'P' then device
  else if char == 'X' || char == '^' || char == '_' then string
  else if ' ' ≤ char && char ≤ '/' then intermediate
  else if '0' ≤ char && char ≤ '~' then ground
  else escape

/-- The state behind a digit or a mark between `0` and `?` at the head of a device
control string.  A misplaced one makes the string a void one, which ends like any. -/
def afterDeviceParameter (char : Char) : TerminalState → TerminalState
  | device => deviceParameters
  | deviceParameters => if char ≤ ';' then deviceParameters else string
  | _ => string

def afterDevice (state : TerminalState) (char : Char) : TerminalState :=
  if char < ' ' || '~' < char then state
  else if char ≤ '/' then deviceIntermediate
  else if char ≤ '?' then afterDeviceParameter char state
  else string

def next : TerminalState → Char → TerminalState
  | _, '\x1B' => escape
  | _, '\x18' => ground
  | _, '\x1A' => ground
  | ground, _ => ground
  | escape, char => afterEscape char
  | intermediate, char => if '0' ≤ char && char ≤ '~' then ground else intermediate
  | parameters, char => if '@' ≤ char && char ≤ '~' then ground else parameters
  | command, char => if char == '\x07' then ground else command
  | string, char => if endsString char then ground else string
  | state, char => state.afterDevice char

/-- Whether a character is shown.  In strings nothing is. -/
def shows : TerminalState → Char → Bool
  | ground, char => isVisible char
  | escape, char | intermediate, char | parameters, char => isLayout char
  | _, _ => false

/-- The shown characters of a text.

White space that is shown within a sequence breaks the sequence off, and what
follows is read as outside of all sequences, up to the next character that is not
shown.  If `resumes` is set, the broken sequence goes on with that character, unless
a character beyond ASCII came between; else it is over.  `passing` says that
the last character was shown. -/
def shown (resumes : Bool) : (passing : Bool) → TerminalState → List Char → List Char
  | _, _, [] => []
  | passing, state, char :: rest =>
      if passing && isVisible char then
        char :: shown resumes true (if char ≤ '\x7F' then state else ground) rest
      else if state.shows char then
        char :: shown resumes true (if resumes then state else ground) rest
      else
        shown resumes false (state.next char) rest

theorem shown_ground (resumes passing : Bool) (text : List Char)
    (visible : ∀ char ∈ text, isVisible char = true) :
    shown resumes passing ground text = text := by
  induction text generalizing passing with
  | nil => rfl
  | cons char rest inductionHypothesis =>
      have others := fun passing =>
        inductionHypothesis passing fun other member => visible other (by simp [member])
      simp [shown, shows, visible char (by simp), others]

end TerminalState

/-- A text on its own, without control characters and escape sequences. -/
def plain (text : String) : String :=
  String.ofList (TerminalState.shown false false .ground text.toList)

/-- What is left of a text, without control characters and escape sequences, when
it is written to an output stream. -/
def plainOutput (text : String) : String :=
  String.ofList (TerminalState.shown true false .ground text.toList)

end ImportSuffix.Text
