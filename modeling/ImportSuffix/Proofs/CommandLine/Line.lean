import ImportSuffix.CommandLine.Reader
import Mathlib.Data.List.Chain

/-!
Command lines as they are written, and what they mean.

A line is a sequence of items in any order.  Each option has its own spellings, most of which
leave a choice of how its value is attached.  The target is a word of its own, or comes last
behind two dashes, where it may look like an option.
-/

namespace ImportSuffix.CommandLine

open Text

/-- An argument that cannot be an option. -/
def IsWord (argument : Bytes) : Prop :=
  argument.head? = some State.dash → argument = [State.dash]

instance (argument : Bytes) : Decidable (IsWord argument) :=
  inferInstanceAs (Decidable (_ → _))

/-- The value of an option, behind an equals sign or as the next word. -/
inductive Written where
  | attached (text : String)
  | separate (text : String)
  deriving DecidableEq

namespace Written

def text : Written → String
  | attached text | separate text => text

def spelled (option : String) : Written → List Bytes
  | attached text => [encode (option ++ "=" ++ text)]
  | separate text => [encode option, encode text]

def WellFormed : Written → Prop
  | attached _ => True
  | separate text => IsWord (encode text)

instance : (written : Written) → Decidable written.WellFormed
  | attached _ => isTrue trivial
  | separate text => inferInstanceAs (Decidable (IsWord (encode text)))

end Written

/-- One item of a command line. -/
inductive Item where
  | exclude (name : String)
  /-- One or more names, each a word of its own. -/
  | excludeAll (short : Bool) (name : String) (others : List String)
  | fileName (value : Written)
  | extension (value : Written)
  | dryRun
  | verbose
  /-- One dash, one letter, and more of these letters. -/
  | verboseLetters (others : Nat)
  | target (word : Bytes)
  deriving DecidableEq

namespace Item

/-- The arguments that make up an item. -/
def spelled : Item → List Bytes
  | exclude name => [encode ("--exclude-dirs=" ++ name)]
  | excludeAll short name others =>
      encode (if short then "-e" else "--exclude-dirs") :: (name :: others).map encode
  | fileName value => value.spelled "--file-name"
  | extension value => value.spelled "--extension"
  | dryRun => [encode "--dry-run"]
  | verbose => [encode "--verbose"]
  | verboseLetters others => [encode "-v" ++ List.replicate others (Char.toUInt8 'v')]
  | target word => [word]

def WellFormed : Item → Prop
  | excludeAll _ name others => ∀ word ∈ name :: others, IsWord (encode word)
  | fileName value | extension value => value.WellFormed
  | target word => IsWord word ∧ word ≠ []
  | exclude _ | dryRun | verbose | verboseLetters _ => True

instance : (item : Item) → Decidable item.WellFormed
  | excludeAll _ name others =>
      inferInstanceAs (Decidable (∀ word ∈ name :: others, IsWord (encode word)))
  | fileName value | extension value => inferInstanceAs (Decidable value.WellFormed)
  | target word => inferInstanceAs (Decidable (IsWord word ∧ word ≠ []))
  | exclude _ | dryRun | verbose | verboseLetters _ => isTrue trivial

/-- Whether a word that follows the item would belong to it. -/
def takesWords : Item → Bool
  | excludeAll .. => true
  | _ => false

def names : Item → List String
  | exclude name => [name]
  | excludeAll _ name others => name :: others
  | _ => []

def fileName? : Item → Option String
  | fileName value => some value.text
  | _ => none

def extension? : Item → Option String
  | extension value => some value.text
  | _ => none

def target? : Item → Option Bytes
  | target word => some word
  | _ => none

/-- How often an item asks for more output. -/
def verbosity : Item → Nat
  | verbose => 1
  | verboseLetters others => others + 1
  | _ => 0

def totalVerbosity (items : List Item) : Nat :=
  items.foldl (fun total item => total + item.verbosity) 0

end Item

/-- A command line: items, and perhaps a target behind two dashes. -/
structure Line where
  items : List Item
  escaped : Option Bytes

namespace Line

def fileNames (line : Line) : List String := line.items.filterMap Item.fileName?

def extensions (line : Line) : List String := line.items.filterMap Item.extension?

def targets (line : Line) : List Bytes :=
  line.items.filterMap Item.target? ++ line.escaped.toList

/-- All arguments of the line. -/
def spelled (line : Line) : List Bytes :=
  line.items.flatMap Item.spelled ++
    match line.escaped with
    | none => []
    | some target => [[State.dash, State.dash], target]

/-- Nothing is given twice that can be given once, and no target would be taken for the
name of a directory to leave out. -/
structure WellFormed (line : Line) : Prop where
  items : ∀ item ∈ line.items, item.WellFormed
  apart : line.items.IsChain fun item next => item.takesWords = true → next.target? = none
  oneFileName : line.fileNames.length ≤ 1
  oneExtension : line.extensions.length ≤ 1
  oneDryRun : line.items.count .dryRun ≤ 1
  oneTarget : line.targets.length ≤ 1
  escaped : ∀ target, line.escaped = some target → target ≠ []

/-- What the line says, wherever in it each item stands. -/
def arguments (line : Line) : Arguments where
  targetDir := line.targets.head?.map Path.mk
  excludeDirs := line.items.flatMap Item.names
  fileName := line.fileNames.head?.getD Settings.defaultTargetName
  extension := line.extensions.head?.getD Settings.defaultExtension
  dryRun := line.items.contains .dryRun
  verbose := min Arguments.verboseLimit (Item.totalVerbosity line.items)

end Line

end ImportSuffix.CommandLine
