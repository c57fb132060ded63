import ImportSuffix.Text.Utf8
import ImportSuffix.Text.Terminal

/-!
The parameters of the command line, and the ways in which a command line can
fail to say what is wanted.
-/

namespace ImportSuffix.CommandLine

open Text

inductive Parameter where
  | targetDir
  | excludeDirs
  | fileName
  | extension
  | dryRun
  | verbose
  | help
  | version
  deriving DecidableEq, Repr

namespace Parameter

def all : List Parameter :=
  [targetDir, excludeDirs, fileName, extension, dryRun, verbose, help, version]

/-- The name behind two dashes.  The target directory is a bare word. -/
def longName? : Parameter → Option String
  | targetDir => none
  | excludeDirs => some "exclude-dirs"
  | fileName => some "file-name"
  | extension => some "extension"
  | dryRun => some "dry-run"
  | verbose => some "verbose"
  | help => some "help"
  | version => some "version"

def shortName? : Parameter → Option Char
  | excludeDirs => some 'e'
  | verbose => some 'v'
  | help => some 'h'
  | version => some 'V'
  | targetDir | fileName | extension | dryRun => none

def takesValue : Parameter → Bool
  | targetDir | excludeDirs | fileName | extension => true
  | dryRun | verbose | help | version => false

/-- Whether words after the first value are values as well. -/
def takesMore : Parameter → Bool
  | excludeDirs => true
  | _ => false

/-- The parameter as error messages spell it. -/
def usage : Parameter → String
  | targetDir => "[TARGET_DIR]"
  | excludeDirs => "--exclude-dirs <NAME>..."
  | fileName => "--file-name <FILE_NAME>"
  | extension => "--extension <EXTENSION>"
  | dryRun => "--dry-run"
  | verbose => "--verbose..."
  | help => "--help"
  | version => "--version"

def ofLong? (name : Bytes) : Option Parameter :=
  all.find? fun parameter => parameter.longName?.map encode == some name

/-- The parameter of a letter.  All letters are single bytes. -/
def ofShort? (letter : UInt8) : Option Parameter :=
  all.find? fun parameter => parameter.shortName?.map Char.toUInt8 == some letter

end Parameter

/-- A fault of the command line: an argument that means nothing, a parameter without
its value, a second use of one that can be given once, a value for one that has
none, or a value that has to be text and is not. -/
inductive Misuse where
  | unknownArgument (shown : String)
  | missingValue (parameter : Parameter)
  | repeated (parameter : Parameter)
  | unexpectedValue (value : String) (parameter : Parameter)
  | invalidText
  deriving DecidableEq, Repr

/-- The wording of a fault.  `clean` prepares words of the command line for being
shown. -/
def Misuse.wording (clean : String → String) : Misuse → String
  | unknownArgument shown => "error: unexpected argument '" ++ clean shown ++ "' found"
  | missingValue parameter =>
      "error: a value is required for '" ++ parameter.usage ++ "' but none was supplied"
  | repeated parameter =>
      "error: the argument '" ++ parameter.usage ++ "' cannot be used multiple times"
  | unexpectedValue value parameter =>
      "error: unexpected value '" ++ clean value ++ "' for '" ++ parameter.usage ++
        "' found; no more were expected"
  | invalidText => "error: invalid UTF-8 was detected in one or more arguments"

def Misuse.message : Misuse → String := wording plain

/-- The message of a fault, as standard error shows it. -/
def Misuse.output : Misuse → String := wording plainOutput

/-- Why a command line is not carried out: it asks for something else, or has a
fault. -/
inductive Halt where
  | help
  | version
  | misuse (fault : Misuse)
  deriving DecidableEq, Repr

end ImportSuffix.CommandLine
