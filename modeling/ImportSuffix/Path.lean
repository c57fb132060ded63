import ImportSuffix.Text.Utf8

/-!
Paths as they are written.

A path is kept byte for byte, so that it is shown and joined as it was given.
`Path.parts` is what it means: the steps to take from the directory at which it
starts.
-/

namespace ImportSuffix

open Text

structure Path where
  bytes : Bytes
  deriving DecidableEq, Repr

/-- One step along a path. -/
inductive Part where
  | here
  | up
  | down (name : Bytes)
  /-- The slash at the very end of a path, which asks for a directory. -/
  | trailing
  deriving DecidableEq, Repr

namespace Path

def separator : UInt8 := 0x2F

def ofText (text : String) : Path := ⟨encode text⟩

def display (path : Path) : String := Text.display path.bytes

def isAbsolute (path : Path) : Bool := path.bytes.head? == some separator

def endsInSeparator (path : Path) : Bool := path.bytes.getLast? == some separator

/-- The path of a name below a path.  A separator comes between the two unless
the path is empty or ends in one. -/
def join (path : Path) (name : Bytes) : Path :=
  if path.bytes.isEmpty || path.endsInSeparator then ⟨path.bytes ++ name⟩
  else ⟨path.bytes ++ separator :: name⟩

/-- A path taken from a directory: an absolute one is itself. -/
def relativeTo (path directory : Path) : Path :=
  if path.isAbsolute then path else directory.join path.bytes

/-- The names between separators, empty ones included. -/
def segments : Bytes → List Bytes
  | [] => [[]]
  | byte :: rest =>
      if byte = separator then [] :: segments rest
      else
        match segments rest with
        | [] => [[byte]]
        | segment :: others => (byte :: segment) :: others

end Path

/-- The step that a name stands for.  An empty name, between two separators,
stands for none. -/
def Part.ofSegment? : Bytes → Option Part
  | [] => none
  | [0x2E] => some .here
  | [0x2E, 0x2E] => some .up
  | name => some (.down name)

def Path.parts (path : Path) : List Part :=
  (segments path.bytes).filterMap Part.ofSegment? ++
    if path.endsInSeparator then [.trailing] else []

end ImportSuffix
