import ImportSuffix.Specifier.Search

/-!
Giving specifiers their extension.

A rule extends every reading in a text: a specifier that ends in the extension is
kept, any other gets it appended.  An `Extender` does so with a list of rules,
each on the text that the rules before it left.
-/

namespace ImportSuffix.Specifier

/-- The extended form of a specifier, which ends in the extension. -/
def extend (extension specifier : List Char) : List Char :=
  if extension.isSuffixOf specifier then specifier else specifier ++ extension

theorem suffix_extend (extension specifier : List Char) :
    extension <:+ extend extension specifier := by
  unfold extend
  split
  next ends => exact List.isSuffixOf_iff_suffix.mp ends
  next => exact List.suffix_append specifier extension

def Reading.extend (extension : List Char) (reading : Reading) : Reading :=
  { reading with specifier := Specifier.extend extension reading.specifier }

def Piece.extend (extension : List Char) : Piece → List Char
  | plain char => [char]
  | found reading => (reading.extend extension).text

namespace Rule

def extend (rule : Rule) (extension text : List Char) : List Char :=
  (rule.pieces text).flatMap (Piece.extend extension)

def occursIn (rule : Rule) (text : List Char) : Bool :=
  !(rule.readings text).isEmpty

/-- The extended text, or nothing where the form does not occur. -/
def extend? (rule : Rule) (extension text : List Char) : Option (List Char) :=
  if rule.occursIn text then some (rule.extend extension text) else none

end Rule

/-- Apply rules in order.  The second part lists the rules whose form occurred;
any other rule leaves no trace. -/
def applyRules (extension : List Char) : List Rule → List Char → List Char × List Rule
  | [], text => (text, [])
  | rule :: rules, text =>
      match rule.extend? extension text with
      | none => applyRules extension rules text
      | some extended =>
          let (final, matched) := applyRules extension rules extended
          (final, rule :: matched)

/-- A text with extended specifiers, and the rules whose form occurred on the way. -/
structure Extended where
  text : String
  matched : List Rule
  deriving DecidableEq, Repr

/-- Rules, in the order in which they apply, and the extension they append. -/
structure Extender where
  rules : List Rule
  extension : String
  deriving DecidableEq, Repr

namespace Extender

/-- Both rules, imports first. -/
def ofExtension (extension : String) : Extender :=
  ⟨[.importFrom, .requireCall], extension⟩

def apply (extender : Extender) (text : String) : Extended :=
  let (final, matched) := applyRules extender.extension.toList extender.rules text.toList
  ⟨String.ofList final, matched⟩

end Extender

end ImportSuffix.Specifier
