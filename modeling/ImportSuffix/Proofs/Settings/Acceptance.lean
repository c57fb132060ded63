import ImportSuffix.CommandLine.Arguments
import ImportSuffix.Proofs.Settings.Extension
import ImportSuffix.Proofs.Settings.OrderedSet

/-!
The settings that a command line leads to, and the command lines that lead to none.

An extension is checked when it has its dot.  The dot is allowed and makes the extension one
byte longer, so whether it passes can be told from the extension as it was given.
-/

namespace ImportSuffix

open Text

namespace Settings

theorem dotted_eq {given : String} (nonempty : given ≠ "") :
    dotted given = if given.toList.head? = some '.' then given else "." ++ given := by
  unfold dotted
  split
  next none => exact absurd (by simpa using none) nonempty
  next dot => rw [if_pos dot]
  next other noDot found =>
    have differs : given.toList.head? ≠ some '.' := by
      rw [found]
      simpa using noDot
    rw [if_neg differs]

theorem dotted_dotted (given : String) : dotted (dotted given) = dotted given := by
  by_cases empty : dotted given = ""
  · rw [empty]
    rfl
  · rw [dotted_eq empty, if_pos (head?_dotted empty)]

theorem any_breaksSpecifier_dotted (given : String) :
    (dotted given).toList.any breaksSpecifier = given.toList.any breaksSpecifier := by
  have dot : breaksSpecifier '.' = false := by decide
  by_cases empty : given = ""
  · rw [empty]
    rfl
  · rw [dotted_eq empty]
    split
    next => rfl
    next => simp [dot]

/-- Only the empty extension and the lone dot are too short. -/
theorem two_le_utf8ByteSize_dotted_iff {given : String} :
    2 ≤ (dotted given).utf8ByteSize ↔ given ≠ "" ∧ given ≠ "." := by
  have dot : ".".utf8ByteSize = 1 := rfl
  by_cases empty : given = ""
  · simp [empty, dotted]
  · rw [dotted_eq empty]
    have positive : given.utf8ByteSize ≠ 0 := by simpa using empty
    split
    next begins =>
      obtain ⟨rest, spelled⟩ := List.head?_eq_some_iff.mp begins
      have whole : given = "." ++ String.ofList rest := by
        rw [← String.toList_inj, spelled]
        simp
      rw [whole, String.utf8ByteSize_append, dot]
      by_cases nothing : rest = []
      · simp [nothing]
      · have follows : (String.ofList rest).utf8ByteSize ≠ 0 := by simpa using nothing
        have longer : "." ++ String.ofList rest ≠ "." := by
          simpa [← String.toList_inj] using nothing
        refine iff_of_true ?_ ⟨by simp [← String.toList_inj], longer⟩
        omega
    next differs =>
      rw [String.utf8ByteSize_append, dot]
      refine iff_of_true (by omega) ⟨empty, ?_⟩
      rintro rfl
      exact differs rfl

theorem exists_toList_dotted_eq {given : String} (nonempty : given ≠ "")
    (moreThanDot : given ≠ ".") : ∃ char rest, (dotted given).toList = '.' :: char :: rest := by
  have long := two_le_utf8ByteSize_dotted_iff.mpr ⟨nonempty, moreThanDot⟩
  have present : dotted given ≠ "" := by
    intro empty
    rw [empty] at long
    cases long
  obtain ⟨rest, spelled⟩ := List.head?_eq_some_iff.mp (head?_dotted present)
  cases rest with
  | nil =>
      have alone : dotted given = "." := String.toList_inj.mp spelled
      rw [alone] at long
      exact absurd long (by decide)
  | cons char rest => exact ⟨char, rest, spelled⟩

/-- What no name of a file may hold. -/
def nameSeparators : List Char := ['/', '\\']

/-- What no extension may hold. -/
def specifierBreaks : List Char := ['\'', '"', ';', '/', '\\']

theorem separatesNames_iff {char : Char} : separatesNames char = true ↔ char ∈ nameSeparators := by
  simp [separatesNames, nameSeparators]

theorem breaksSpecifier_iff {char : Char} :
    breaksSpecifier char = true ↔ char ∈ specifierBreaks := by
  simp [breaksSpecifier, separatesNames, specifierBreaks, or_assoc]

theorem any_iff_of_mem {test : Char → Bool} {refused text : List Char}
    (means : ∀ {char}, test char = true ↔ char ∈ refused) :
    text.any test = true ↔ ∃ char ∈ refused, char ∈ text := by
  simp only [List.any_eq_true, means]
  constructor
  · rintro ⟨char, membership, isRefused⟩
    exact ⟨char, isRefused, membership⟩
  · rintro ⟨char, isRefused, membership⟩
    exact ⟨char, membership, isRefused⟩

theorem not_any_iff_of_mem {test : Char → Bool} {refused text : List Char}
    (means : ∀ {char}, test char = true ↔ char ∈ refused) :
    ¬text.any test = true ↔ ∀ char ∈ refused, char ∉ text := by
  rw [any_iff_of_mem means]
  exact ⟨fun none char isRefused membership => none ⟨char, isRefused, membership⟩,
    fun none found => none found.choose found.choose_spec.1 found.choose_spec.2⟩

/-- What can be the name of a file, wherever the file is. -/
structure PlainName (name : String) : Prop where
  nonempty : name ≠ ""
  unseparated : ∀ char ∈ nameSeparators, char ∉ name.toList

/-- What can be given as an extension, with or without its dot. -/
structure Appendable (given : String) : Prop where
  nonempty : given ≠ ""
  moreThanDot : given ≠ "."
  unbroken : ∀ char ∈ specifierBreaks, char ∉ given.toList

end Settings

namespace CommandLine

open Settings

/-- What a command line says, as settings that are not checked yet. -/
def Arguments.unchecked (arguments : Arguments) (directory : Path) : Settings where
  root := arguments.root directory
  excluded := .ofList arguments.excludeDirs
  targetName := arguments.fileName
  extension := dotted arguments.extension
  dryRun := arguments.dryRun

/-- The first problem with what a command line says, in the order of the checks. -/
inductive Arguments.FirstProblem (arguments : Arguments) : Problem → Prop where
  | emptyName : arguments.fileName = "" → FirstProblem arguments .emptyName
  | nameIsPath :
      arguments.fileName ≠ "" → (∃ char ∈ nameSeparators, char ∈ arguments.fileName.toList) →
      FirstProblem arguments (.nameIsPath arguments.fileName)
  | extensionTooShort :
      PlainName arguments.fileName → (arguments.extension = "" ∨ arguments.extension = ".") →
      FirstProblem arguments (.extensionTooShort (dotted arguments.extension))
  | extensionCharacters :
      PlainName arguments.fileName → arguments.extension ≠ "" → arguments.extension ≠ "." →
      (∃ char ∈ specifierBreaks, char ∈ arguments.extension.toList) →
      FirstProblem arguments (.extensionCharacters (dotted arguments.extension))

/-- The settings that a command line leads to, from a working directory. -/
structure Arguments.LeadsTo (arguments : Arguments) (directory : Path) (settings : Settings) :
    Prop where
  root : settings.root =
    match arguments.targetDir with
    | some target => if target.isAbsolute then target else directory.join target.bytes
    | none => directory.join (encode "packages")
  excluded : settings.excluded.names = arguments.excludeDirs.eraseDups
  targetName : settings.targetName = arguments.fileName
  extension : settings.extension =
    if arguments.extension.toList.head? = some '.' then arguments.extension
    else "." ++ arguments.extension
  long : ∃ char rest, settings.extension.toList = '.' :: char :: rest
  settled : dotted settings.extension = settings.extension
  dryRun : settings.dryRun = arguments.dryRun
  checked : settings.check = .ok ()

namespace Arguments

variable {arguments : Arguments} {directory : Path}

theorem settings_eq (arguments : Arguments) (directory : Path) :
    arguments.settings directory =
      match (arguments.unchecked directory).problem? with
      | none => .ok (arguments.unchecked directory)
      | some problem => .error (.invalidSettings problem.explanation) := by
  change (do (arguments.unchecked directory).check
             return arguments.unchecked directory : Except Failure Settings) = _
  rw [Settings.check]
  cases (arguments.unchecked directory).problem? <;> rfl

/-- The four checks, said about what was given. -/
theorem problem?_unchecked (arguments : Arguments) (directory : Path) :
    (arguments.unchecked directory).problem? =
      if arguments.fileName = "" then some .emptyName
      else if arguments.fileName.toList.any separatesNames then
        some (.nameIsPath arguments.fileName)
      else if ¬(arguments.extension ≠ "" ∧ arguments.extension ≠ ".") then
        some (.extensionTooShort (dotted arguments.extension))
      else if arguments.extension.toList.any breaksSpecifier then
        some (.extensionCharacters (dotted arguments.extension))
      else none := by
  simp only [problem?, unchecked, any_breaksSpecifier_dotted, String.isEmpty_iff, ← Nat.not_le,
    two_le_utf8ByteSize_dotted_iff]

theorem problem?_unchecked_eq_some_iff (directory : Path) {problem : Problem} :
    (arguments.unchecked directory).problem? = some problem ↔ arguments.FirstProblem problem := by
  rw [problem?_unchecked]
  constructor
  · intro found
    split at found
    next empty =>
      cases found
      exact .emptyName empty
    next nonempty =>
      split at found
      next separated =>
        cases found
        exact .nameIsPath nonempty ((any_iff_of_mem separatesNames_iff).mp separated)
      next unseparated =>
        have plain : PlainName arguments.fileName :=
          ⟨nonempty, (not_any_iff_of_mem separatesNames_iff).mp unseparated⟩
        split at found
        next short =>
          cases found
          exact .extensionTooShort plain (by tauto)
        next long =>
          obtain ⟨given, moreThanDot⟩ := not_not.mp long
          split at found
          next broken =>
            cases found
            exact .extensionCharacters plain given moreThanDot
              ((any_iff_of_mem breaksSpecifier_iff).mp broken)
          next => cases found
  · intro first
    cases first with
    | emptyName empty => rw [if_pos empty]
    | nameIsPath nonempty separated =>
        rw [if_neg nonempty, if_pos ((any_iff_of_mem separatesNames_iff).mpr separated)]
    | extensionTooShort plain short =>
        have unseparated := (not_any_iff_of_mem separatesNames_iff).mpr plain.unseparated
        rw [if_neg plain.nonempty, if_neg unseparated, if_pos (by tauto)]
    | extensionCharacters plain given moreThanDot broken =>
        have unseparated := (not_any_iff_of_mem separatesNames_iff).mpr plain.unseparated
        rw [if_neg plain.nonempty, if_neg unseparated, if_neg (not_not.mpr ⟨given, moreThanDot⟩),
          if_pos ((any_iff_of_mem breaksSpecifier_iff).mpr broken)]

/-- A command line has no problem exactly if both of its values can be used. -/
theorem forall_not_firstProblem_iff :
    (∀ problem, ¬arguments.FirstProblem problem) ↔
      PlainName arguments.fileName ∧ Appendable arguments.extension := by
  constructor
  · intro none
    have plain : PlainName arguments.fileName := by
      have nonempty : arguments.fileName ≠ "" := fun empty => none _ (.emptyName empty)
      refine ⟨nonempty, fun char separates membership => ?_⟩
      exact none _ (.nameIsPath nonempty ⟨char, separates, membership⟩)
    have given : arguments.extension ≠ "" := fun empty =>
      none _ (.extensionTooShort plain (.inl empty))
    have moreThanDot : arguments.extension ≠ "." := fun dot =>
      none _ (.extensionTooShort plain (.inr dot))
    refine ⟨plain, given, moreThanDot, fun char breaks membership => ?_⟩
    exact none _ (.extensionCharacters plain given moreThanDot ⟨char, breaks, membership⟩)
  · rintro ⟨plain, appendable⟩ problem first
    cases first with
    | emptyName empty => exact plain.nonempty empty
    | nameIsPath _ separated =>
        obtain ⟨char, separates, membership⟩ := separated
        exact plain.unseparated char separates membership
    | extensionTooShort _ short => exact short.elim appendable.nonempty appendable.moreThanDot
    | extensionCharacters _ _ _ broken =>
        obtain ⟨char, breaks, membership⟩ := broken
        exact appendable.unbroken char breaks membership

theorem settings_eq_ok_iff {settings : Settings} :
    arguments.settings directory = .ok settings ↔
      settings = arguments.unchecked directory ∧ ∀ problem, ¬arguments.FirstProblem problem := by
  rw [settings_eq]
  cases found : (arguments.unchecked directory).problem? with
  | none =>
      have none : ∀ problem, ¬arguments.FirstProblem problem := by
        intro problem first
        rw [← problem?_unchecked_eq_some_iff directory, found] at first
        cases first
      simp [none, eq_comm]
  | some problem =>
      have first := (problem?_unchecked_eq_some_iff directory).mp found
      simp only [reduceCtorEq, false_iff, not_and]
      exact fun _ none => none problem first

theorem settings_eq_error_iff {failure : Failure} :
    arguments.settings directory = .error failure ↔
      ∃ problem, arguments.FirstProblem problem ∧
        failure = .invalidSettings problem.explanation := by
  rw [settings_eq]
  simp only [← problem?_unchecked_eq_some_iff directory]
  cases (arguments.unchecked directory).problem? with
  | none => simp
  | some problem => simp [eq_comm]

theorem root_eq (arguments : Arguments) (directory : Path) :
    arguments.root directory =
      match arguments.targetDir with
      | some target => if target.isAbsolute then target else directory.join target.bytes
      | none => directory.join (encode "packages") := by
  cases given : arguments.targetDir with
  | none =>
      have relative : (Path.ofText defaultRoot).isAbsolute = false := by decide
      rw [root, given, Option.getD_none, Path.relativeTo, relative, if_neg Bool.false_ne_true]
      rfl
  | some target => rw [root, given, Option.getD_some, Path.relativeTo]

theorem check_unchecked (none : ∀ problem, ¬arguments.FirstProblem problem) :
    (arguments.unchecked directory).check = .ok () := by
  have unproblematic : (arguments.unchecked directory).problem? = .none := by
    apply Option.eq_none_iff_forall_ne_some.mpr
    intro problem found
    exact none problem ((problem?_unchecked_eq_some_iff directory).mp found)
  rw [Settings.check, unproblematic]

theorem leadsTo_of_accepted {settings : Settings}
    (accepted : arguments.settings directory = .ok settings) :
    arguments.LeadsTo directory settings := by
  obtain ⟨rfl, none⟩ := settings_eq_ok_iff.mp accepted
  obtain ⟨_, given, moreThanDot, _⟩ := forall_not_firstProblem_iff.mp none
  exact {
    root := root_eq arguments directory
    excluded := ExcludedNames.names_ofList arguments.excludeDirs
    targetName := rfl
    extension := dotted_eq given
    long := exists_toList_dotted_eq given moreThanDot
    settled := dotted_dotted arguments.extension
    dryRun := rfl
    checked := check_unchecked none }

/-- Which values of a command line are accepted, what settings they lead to, and which problem is
reported of those that are not. -/
theorem settings_accepted_iff (arguments : Arguments) (directory : Path) :
    ((∃ settings, arguments.settings directory = .ok settings) ↔
      PlainName arguments.fileName ∧ Appendable arguments.extension) ∧
    (∀ settings, arguments.settings directory = .ok settings →
      arguments.LeadsTo directory settings) ∧
    ∀ failure, arguments.settings directory = .error failure ↔
      ∃ problem, arguments.FirstProblem problem ∧
        failure = .invalidSettings problem.explanation := by
  refine ⟨?_, fun settings => leadsTo_of_accepted, fun failure => settings_eq_error_iff⟩
  simp only [settings_eq_ok_iff, exists_eq_left, forall_not_firstProblem_iff]

end Arguments

end CommandLine

end ImportSuffix
