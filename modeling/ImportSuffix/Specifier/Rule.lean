import ImportSuffix.Text.Blank

/-!
The two forms in which a source text names a file next to its own: after the
keyword `from`, and as the argument of `require`.

A `Reading` is one occurrence of such a form, cut into the part before the
specifier, the specifier and the part after it.  `Rule.Reads` is the grammar of
the two forms.
-/

namespace ImportSuffix.Specifier

open Text

/-- A form in which a specifier is recognised. -/
inductive Rule where
  /-- The keyword `from`, blanks, and a quoted specifier. -/
  | importFrom
  /-- A call of `require` whose whole argument is a quoted specifier. -/
  | requireCall
  deriving DecidableEq, Repr

structure Reading where
  /-- Everything up to and with the opening quote. -/
  head : List Char
  /-- What stands between the quotes. -/
  specifier : List Char
  /-- The closing quote and all that the form demands after it. -/
  tail : List Char
  deriving DecidableEq, Repr

def Reading.text (reading : Reading) : List Char :=
  reading.head ++ reading.specifier ++ reading.tail

/-- Specifiers stand in single or in double quotes, and the two may be mixed. -/
def isQuote (char : Char) : Bool := char == '\'' || char == '"'

/-- How a specifier begins that is relative to the directory of its own file. -/
def relativeStart : List Char := ['.', '/']

namespace Rule

def name : Rule → String
  | importFrom => "import-from"
  | requireCall => "require-call"

def keyword : Rule → List Char
  | importFrom => ['f', 'r', 'o', 'm']
  | requireCall => ['r', 'e', 'q', 'u', 'i', 'r', 'e', '(']

/-- Characters that a specifier may hold.  A quote or a line feed ends the
search for its end, and a semicolon ends the statement of an import. -/
def allows : Rule → Char → Bool
  | importFrom, char => !isQuote char && char != ';' && char != '\n'
  | requireCall, char => !isQuote char && char != '\n'

def closing : Rule → List Char
  | importFrom => []
  | requireCall => [')']

/-- The head of each form: only an import has blanks before its quote, and it
has at least one. -/
inductive Head : Rule → List Char → Prop where
  | importFrom {blanks quote} :
      blanks ≠ [] → (∀ char ∈ blanks, isBlank char = true) → isQuote quote = true →
      Head .importFrom (Rule.importFrom.keyword ++ blanks ++ [quote])
  | requireCall {quote} :
      isQuote quote = true → Head .requireCall (Rule.requireCall.keyword ++ [quote])

/-- A specifier begins as a relative one and goes on with allowed characters. -/
def Body (rule : Rule) (specifier : List Char) : Prop :=
  ∃ rest, rest ≠ [] ∧ (∀ char ∈ rest, rule.allows char = true) ∧
    specifier = relativeStart ++ rest

/-- The tail of each form: a quote, of either kind, and the closing characters. -/
def Tail (rule : Rule) (tail : List Char) : Prop :=
  ∃ quote, isQuote quote = true ∧ tail = quote :: rule.closing

/-- The grammar of a form. -/
structure Reads (rule : Rule) (reading : Reading) : Prop where
  head : rule.Head reading.head
  specifier : rule.Body reading.specifier
  tail : rule.Tail reading.tail

end Rule

end ImportSuffix.Specifier
