import ImportSuffix.Path

/-!
What can go wrong, as causes.  The wording of each stands in one function:
`Cause.message` for what the operating system reports, `Failure.message` for
what the program makes of it.
-/

namespace ImportSuffix

/-- The errors of the operating system that the program can meet. -/
inductive SystemError where
  | noEntry
  | tryAgain
  | permissionDenied
  | notADirectory
  | isADirectory
  | noSpace
  | readOnly
  | nameTooLong
  | tooManyLinks
  deriving DecidableEq, Repr

namespace SystemError

def number : SystemError → Nat
  | noEntry => 2
  | tryAgain => 11
  | permissionDenied => 13
  | notADirectory => 20
  | isADirectory => 21
  | noSpace => 28
  | readOnly => 30
  | nameTooLong => 36
  | tooManyLinks => 40

def description : SystemError → String
  | noEntry => "No such file or directory"
  | tryAgain => "Resource temporarily unavailable"
  | permissionDenied => "Permission denied"
  | notADirectory => "Not a directory"
  | isADirectory => "Is a directory"
  | noSpace => "No space left on device"
  | readOnly => "Read-only file system"
  | nameTooLong => "File name too long"
  | tooManyLinks => "Too many levels of symbolic links"

end SystemError

/-- Why an access to the disk fails: the operating system refuses it, a file holds
no text, a path holds a zero byte and so cannot be passed on, or something else
that is only known by its description. -/
inductive Cause where
  | system (error : SystemError)
  | invalidText
  | zeroInPath
  | described (text : String)
  deriving DecidableEq, Repr

def Cause.message : Cause → String
  | system error => error.description ++ " (os error " ++ toString error.number ++ ")"
  | invalidText => "stream did not contain valid UTF-8"
  | zeroInPath => "file name contained an unexpected NUL byte"
  | described text => text

/-- Why the program cannot do its work.  `access` concerns no file in particular; it is what
becomes of a working directory that is gone.  `pattern` is about a rule that cannot be made.  Both
rules are fixed, so nothing fails with it, and it only has its wording. -/
inductive Failure where
  | access (cause : Cause)
  | pattern (explanation : String)
  | read (path : Path) (cause : Cause)
  | write (path : Path) (cause : Cause)
  | invalidSettings (explanation : String)
  deriving DecidableEq, Repr

def Failure.message : Failure → String
  | access cause => "IO error: " ++ cause.message ++ "."
  | pattern explanation =>
      "Failed to compile rewrite pattern. Original error: " ++ explanation
  | read path cause =>
      "Cannot read '" ++ path.display ++ "'. Original error: " ++ cause.message
  | write path cause =>
      "Cannot write '" ++ path.display ++ "'. Original error: " ++ cause.message
  | invalidSettings explanation => "Invalid settings: " ++ explanation ++ "."

end ImportSuffix
