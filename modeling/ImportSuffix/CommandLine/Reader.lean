import ImportSuffix.CommandLine.Arguments
import ImportSuffix.CommandLine.Parameter

/-!
Reading a command line.

Arguments are read from left to right.  A parameter that takes values is opened
by its name, collects them, and is closed by the next argument that is no value
of its own; only then are its values checked and kept.  So a fault in the values
shows up at the argument that closes them, unless that argument is itself one
that means nothing.
-/

namespace ImportSuffix.CommandLine

open Text

structure Given where
  targetDir : Option Path
  excludeDirs : List String
  fileName : Option String
  extension : Option String
  dryRun : Bool
  verbose : Nat
  deriving DecidableEq, Repr

namespace Given

def nothing : Given := ⟨none, [], none, none, false, 0⟩

def decodeAll : List Bytes → Except Misuse (List String)
  | [] => .ok []
  | value :: rest =>
      match decode? value with
      | none => .error .invalidText
      | some text => (decodeAll rest).map (text :: ·)

/-- The one value of a parameter, which has to be text and the first one given. -/
def only (parameter : Parameter) (earlier : Option String) (value : Bytes) :
    Except Misuse String :=
  match earlier, decode? value with
  | some _, _ => .error (.repeated parameter)
  | none, none => .error .invalidText
  | none, some text => .ok text

/-- Keep the values of a parameter.  Parameters without values have none to keep. -/
def keep (given : Given) (parameter : Parameter) (values : List Bytes) : Except Misuse Given :=
  match parameter, values with
  | .excludeDirs, value :: rest => do
      let names ← decodeAll (value :: rest)
      return { given with excludeDirs := given.excludeDirs ++ names }
  | .fileName, value :: _ => do
      let text ← only .fileName given.fileName value
      return { given with fileName := some text }
  | .extension, value :: _ => do
      let text ← only .extension given.extension value
      return { given with extension := some text }
  | .targetDir, value :: _ =>
      if value.isEmpty then .error (.missingValue .targetDir)
      else .ok { given with targetDir := some ⟨value⟩ }
  | _, _ => .error (.missingValue parameter)

/-- The meaning of what was said, with defaults for what was not. -/
def arguments (given : Given) : Arguments where
  targetDir := given.targetDir
  excludeDirs := given.excludeDirs
  fileName := given.fileName.getD Settings.defaultTargetName
  extension := given.extension.getD Settings.defaultExtension
  dryRun := given.dryRun
  verbose := given.verbose

end Given

/-- A parameter whose values are being collected. -/
structure Pending where
  parameter : Parameter
  values : List Bytes
  /-- Whether the next word is one of its values. -/
  collecting : Bool
  deriving DecidableEq, Repr

/-- Where a reader of the command line stands. -/
structure State where
  given : Given
  pending : Option Pending
  /-- Whether all arguments that follow are words. -/
  wordsOnly : Bool
  deriving DecidableEq, Repr

namespace State

def initial : State := ⟨.nothing, none, false⟩

def close (state : State) : Except Halt State :=
  match state.pending with
  | none => .ok state
  | some pending =>
      match state.given.keep pending.parameter pending.values with
      | .ok given => .ok { state with given, pending := none }
      | .error fault => .error (.misuse fault)

def collect (state : State) (pending : Pending) : Except Halt State := do
  let state ← state.close
  return { state with pending := some pending }

def assign (state : State) (parameter : Parameter) (value : Bytes) : Except Halt State := do
  let state ← state.collect ⟨parameter, [value], false⟩
  state.close

def raise (state : State) (parameter : Parameter) : Except Halt State := do
  let state ← state.close
  let given := state.given
  match parameter with
  | .help => .error .help
  | .version => .error .version
  | .verbose =>
      return { state with
        given := { given with verbose := min Arguments.verboseLimit (given.verbose + 1) } }
  | .dryRun =>
      if given.dryRun then .error (.misuse (.repeated .dryRun))
      else return { state with given := { given with dryRun := true } }
  | .targetDir | .excludeDirs | .fileName | .extension =>
      .error (.misuse (.missingValue parameter))

def hasTarget (state : State) : Bool :=
  state.given.targetDir.isSome ||
    state.pending.any fun pending => pending.parameter == .targetDir

/-- Take a word that is no value of an option: there is one target directory. -/
def readTarget (state : State) (word : Bytes) : Except Halt State :=
  if state.hasTarget then .error (.misuse (.unknownArgument (display word)))
  else state.collect ⟨.targetDir, [word], false⟩

def readWord (state : State) (word : Bytes) : Except Halt State :=
  match state.pending with
  | some ⟨parameter, values, true⟩ =>
      .ok { state with
        pending := some ⟨parameter, values ++ [word], parameter.takesMore⟩ }
  | _ => state.readTarget word

/-- The byte between a long name and its value. -/
def equals : UInt8 := 0x3D

/-- Take what stands behind two dashes: a name, and perhaps a value. -/
def readLong (state : State) (argument : Bytes) : Except Halt State :=
  let name := argument.takeWhile (· != equals)
  match Parameter.ofLong? name, argument.dropWhile (· != equals) with
  | none, _ => .error (.misuse (.unknownArgument ("--" ++ display name)))
  | some parameter, [] =>
      if parameter.takesValue then state.collect ⟨parameter, [], true⟩
      else state.raise parameter
  | some parameter, _ :: value =>
      if parameter.takesValue then state.assign parameter value
      else .error (.misuse (.unexpectedValue (display value) parameter))

/-- How the letter at the beginning of some bytes is shown. -/
def shownLetter (letters : Bytes) : String :=
  match firstChar? letters with
  | some char => String.singleton char
  | none => display letters

/-- Take what stands behind one dash: letters, of which one that takes a value has
the rest as its value. -/
def readShort (state : State) : Bytes → Except Halt State
  | [] => .ok state
  | letter :: rest =>
      match Parameter.ofShort? letter with
      | none => .error (.misuse (.unknownArgument ("-" ++ shownLetter (letter :: rest))))
      | some parameter =>
          if parameter.takesValue then
            match rest with
            | [] => state.collect ⟨parameter, [], true⟩
            | first :: others =>
                state.assign parameter (if first = equals then others else first :: others)
          else do
            let state ← state.raise parameter
            state.readShort rest

def dash : UInt8 := 0x2D

def read (state : State) (argument : Bytes) : Except Halt State :=
  if state.wordsOnly then state.readTarget argument
  else if argument = [dash, dash] then .ok { state with wordsOnly := true }
  else
    match argument with
    | first :: second :: rest =>
        if first = dash ∧ second = dash then state.readLong rest
        else if first = dash then state.readShort (second :: rest)
        else state.readWord argument
    | _ => state.readWord argument

end State

def parse (arguments : List Bytes) : Except Halt Arguments := do
  let state ← arguments.foldlM State.read .initial
  let state ← state.close
  return state.given.arguments

end ImportSuffix.CommandLine
