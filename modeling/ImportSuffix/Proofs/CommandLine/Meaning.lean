import ImportSuffix.Proofs.CommandLine.Reading
import Mathlib.Data.List.Induction

/-!
Command lines are read as they are written.

Each item adds its part to what the reader has been given, whatever came before it.  So the
order of items does not matter, but for the order of the names to leave out.
-/

namespace ImportSuffix.CommandLine

open Text

/-- What has been given after one more item. -/
def Given.add (given : Given) (item : Item) : Given where
  targetDir := given.targetDir.or (item.target?.map Path.mk)
  excludeDirs := given.excludeDirs ++ item.names
  fileName := given.fileName.or item.fileName?
  extension := given.extension.or item.extension?
  dryRun := given.dryRun || .dryRun == item
  verbose := min Arguments.verboseLimit (given.verbose + item.verbosity)

/-- An item that can be given once has not been given before. -/
def Given.Admits (given : Given) : Item → Prop
  | .fileName _ => given.fileName = none
  | .extension _ => given.extension = none
  | .dryRun => given.dryRun = false
  | .target _ => given.targetDir = none
  | .exclude _ | .excludeAll .. | .verbose | .verboseLetters _ => True

/-- What is given by some items. -/
def Given.ofItems (items : List Item) : Given where
  targetDir := (items.filterMap Item.target?).head?.map Path.mk
  excludeDirs := items.flatMap Item.names
  fileName := (items.filterMap Item.fileName?).head?
  extension := (items.filterMap Item.extension?).head?
  dryRun := items.contains .dryRun
  verbose := min Arguments.verboseLimit (Item.totalVerbosity items)

theorem Item.totalVerbosity_append_singleton (items : List Item) (item : Item) :
    totalVerbosity (items ++ [item]) = totalVerbosity items + item.verbosity := by
  rw [totalVerbosity, List.foldl_append]
  rfl

theorem Given.ofItems_append_singleton (items : List Item) (item : Item) :
    ofItems (items ++ [item]) = (ofItems items).add item := by
  have verbose : min Arguments.verboseLimit (Item.totalVerbosity (items ++ [item])) =
      min Arguments.verboseLimit
        (min Arguments.verboseLimit (Item.totalVerbosity items) + item.verbosity) := by
    rw [Item.totalVerbosity_append_singleton]
    omega
  have dryRun : (items ++ [item]).contains .dryRun =
      (items.contains .dryRun || .dryRun == item) := by
    rw [List.contains_append, List.contains_cons, List.contains_nil, Bool.or_false]
  simp only [ofItems, add, Given.mk.injEq, dryRun, verbose, List.filterMap_append,
    List.flatMap_append, List.head?_append]
  refine ⟨?_, by simp, ?_, ?_, trivial, trivial⟩
  · cases (items.filterMap Item.target?).head? <;> cases item <;> rfl
  · cases item <;> rfl
  · cases item <;> rfl

/-- Each item adds to one part of what has been given. -/
theorem Given.add_eq {given : Given} {item : Item}
    (within : given.verbose ≤ Arguments.verboseLimit) (admits : given.Admits item) :
    given.add item =
      match item with
      | .exclude name => { given with excludeDirs := given.excludeDirs ++ [name] }
      | .excludeAll _ name others =>
          { given with excludeDirs := given.excludeDirs ++ name :: others }
      | .fileName value => { given with fileName := some value.text }
      | .extension value => { given with extension := some value.text }
      | .dryRun => { given with dryRun := true }
      | .verbose => { given with
          verbose := min Arguments.verboseLimit (given.verbose + 1) }
      | .verboseLetters others => { given with
          verbose := min Arguments.verboseLimit (given.verbose + (others + 1)) }
      | .target word => { given with targetDir := some ⟨word⟩ } := by
  have verbose : min Arguments.verboseLimit given.verbose = given.verbose :=
    Nat.min_eq_right within
  unfold Given.Admits at admits
  cases item <;>
    simp_all [add, Item.target?, Item.names, Item.fileName?, Item.extension?, Item.verbosity]

namespace State

section

variable {state : State} {given : Given} {waiting : Bool} (holds : state.Holds given waiting)
include holds

/-- A reader that waits for no word takes one as the target. -/
theorem Holds.read_target (settled : waiting = false) (noTarget : given.targetDir = none)
    {word : Bytes} (isWord : IsWord word) :
    state.read word = .ok ⟨given, some ⟨.targetDir, [word], false⟩, false⟩ := by
  rw [read_word holds.attentive isWord, readWord]
  split
  next parameter values pending =>
    have waits := holds.waiting _ pending rfl
    rw [settled] at waits
    cases waits
  next => exact holds.readTarget noTarget word

theorem Holds.read_excludeAll (short : Bool) {name : String} {others : List String}
    (areWords : ∀ word ∈ name :: others, IsWord (encode word)) :
    (Item.excludeAll short name others).spelled.foldlM State.read state =
      .ok ⟨given, some ⟨.excludeDirs, (name :: others).map encode, true⟩, false⟩ := by
  have opened : state.read (encode (if short then "-e" else "--exclude-dirs")) =
      .ok ⟨given, some ⟨.excludeDirs, [], true⟩, false⟩ := by
    cases short with
    | true =>
        have short : Parameter.excludeDirs.shortName? = some 'e' := rfl
        have read := read_letter holds.attentive (Parameter.plain_letter short).1
          (Parameter.plain_letter short).2 []
        rw [List.append_nil, readShort, Parameter.ofShort?_toUInt8 short] at read
        exact read.trans (holds.collect _)
    | false =>
        have long : Parameter.excludeDirs.longName? = some "exclude-dirs" := rfl
        exact holds.read_name long
  rw [Item.spelled, List.foldlM_cons, opened]
  exact read_words areWords []

theorem Holds.read_verboseLetters (others : Nat) :
    state.read (encode "-v" ++ List.replicate others (Char.toUInt8 'v')) = .ok ⟨{ given with
      verbose := min Arguments.verboseLimit (given.verbose + (others + 1)) }, none, false⟩ := by
  have short : Parameter.verbose.shortName? = some 'v' := rfl
  have read := read_letter holds.attentive (Parameter.plain_letter short).1
    (Parameter.plain_letter short).2 (List.replicate others (Char.toUInt8 'v'))
  rw [← List.replicate_succ, holds.readShort_verbose] at read
  exact read

/-- The step from one item to the next one. -/
theorem Holds.read_item {item : Item} (within : given.verbose ≤ Arguments.verboseLimit)
    (wellFormed : item.WellFormed) (admits : given.Admits item)
    (apart : waiting = true → item.target? = none) :
    ∃ next, item.spelled.foldlM State.read state = .ok next ∧
      next.Holds (given.add item) item.takesWords := by
  rw [Given.add_eq within admits]
  cases item with
  | exclude name =>
      have long : Parameter.excludeDirs.longName? = some "exclude-dirs" := rfl
      refine ⟨_, ?_, holds_settled _ _⟩
      rw [Item.spelled, List.foldlM_cons]
      rw [show "--exclude-dirs=" = "--" ++ "exclude-dirs" ++ "=" from rfl,
        holds.read_attached long rfl (Given.keep_excludeDirs name [])]
      rfl
  | excludeAll short name others =>
      refine ⟨_, holds.read_excludeAll short wellFormed, ?_⟩
      exact holds_pending (Given.keep_excludeDirs name others) (by simp) true
  | fileName value =>
      have long : Parameter.fileName.longName? = some "file-name" := rfl
      exact holds.read_written long rfl rfl wellFormed (Given.keep_fileName admits _) (by simp)
  | extension value =>
      have long : Parameter.extension.longName? = some "extension" := rfl
      exact holds.read_written long rfl rfl wellFormed (Given.keep_extension admits _) (by simp)
  | dryRun =>
      have long : Parameter.dryRun.longName? = some "dry-run" := rfl
      refine ⟨_, ?_, holds_settled _ _⟩
      rw [Item.spelled, List.foldlM_cons, show "--dry-run" = "--" ++ "dry-run" from rfl,
        holds.read_name long, Parameter.takesValue, if_neg Bool.false_ne_true,
        holds.raise_dryRun admits]
      rfl
  | verbose =>
      have long : Parameter.verbose.longName? = some "verbose" := rfl
      refine ⟨_, ?_, holds_settled _ _⟩
      rw [Item.spelled, List.foldlM_cons, show "--verbose" = "--" ++ "verbose" from rfl,
        holds.read_name long, Parameter.takesValue, if_neg Bool.false_ne_true,
        holds.raise_verbose]
      rfl
  | verboseLetters others =>
      refine ⟨_, ?_, holds_settled _ _⟩
      rw [Item.spelled, List.foldlM_cons, holds.read_verboseLetters]
      rfl
  | target word =>
      have settled : waiting = false := by
        cases waiting with
        | false => rfl
        | true => cases apart rfl
      refine ⟨_, ?_, holds_pending (Given.keep_targetDir wellFormed.2) (by simp) false⟩
      rw [Item.spelled, List.foldlM_cons, holds.read_target settled admits wellFormed.1]
      rfl

end

end State

namespace Line

variable {items : List Item} {item : Item}

theorem WellFormed.front (wellFormed : WellFormed ⟨items ++ [item], none⟩) :
    WellFormed ⟨items, none⟩ := by
  obtain ⟨each, apart, oneFileName, oneExtension, oneDryRun, oneTarget, _⟩ := wellFormed
  simp only [fileNames, extensions, Line.targets, List.filterMap_append, List.length_append,
    List.count_append] at *
  refine ⟨fun other membership => each other (List.mem_append_left _ membership),
    (List.isChain_append.mp apart).1, ?_, ?_, ?_, ?_, by simp⟩
  · exact Nat.le_trans (Nat.le_add_right _ _) oneFileName
  · exact Nat.le_trans (Nat.le_add_right _ _) oneExtension
  · exact Nat.le_trans (Nat.le_add_right _ _) oneDryRun
  · simp only [Line.targets, List.length_append] at *
    omega

theorem WellFormed.admits (wellFormed : WellFormed ⟨items ++ [item], none⟩) :
    (Given.ofItems items).Admits item := by
  obtain ⟨_, _, oneFileName, oneExtension, oneDryRun, oneTarget, _⟩ := wellFormed
  cases item with
  | fileName value =>
      simpa [Given.Admits, Given.ofItems, fileNames, Item.fileName?] using oneFileName
  | extension value =>
      simpa [Given.Admits, Given.ofItems, extensions, Item.extension?] using oneExtension
  | dryRun => simpa [Given.Admits, Given.ofItems, List.count_eq_zero] using oneDryRun
  | target word =>
      simpa [Given.Admits, Given.ofItems, Line.targets, Item.target?] using oneTarget
  | exclude _ | excludeAll _ _ _ | verbose | verboseLetters _ => trivial

theorem WellFormed.last_apart (wellFormed : WellFormed ⟨items ++ [item], none⟩)
    (waiting : items.getLast?.any Item.takesWords = true) : item.target? = none := by
  cases isLast : items.getLast? with
  | none =>
      rw [isLast] at waiting
      cases waiting
  | some last =>
      rw [isLast] at waiting
      exact (List.isChain_append.mp wellFormed.apart).2.2 last isLast item rfl waiting

theorem WellFormed.unescaped {line : Line} (wellFormed : line.WellFormed) :
    WellFormed ⟨line.items, none⟩ := by
  obtain ⟨each, apart, oneFileName, oneExtension, oneDryRun, oneTarget, _⟩ := wellFormed
  refine ⟨each, apart, oneFileName, oneExtension, oneDryRun, ?_, by simp⟩
  simp only [Line.targets, List.length_append] at *
  exact Nat.le_trans (Nat.le_add_right _ _) oneTarget

/-- The run over all items, by induction on the line from its last item. -/
theorem WellFormed.read_items (wellFormed : WellFormed ⟨items, none⟩) :
    ∃ state, (items.flatMap Item.spelled).foldlM State.read .initial = .ok state ∧
      state.Holds (Given.ofItems items) (items.getLast?.any Item.takesWords) := by
  induction items using List.reverseRecOn with
  | nil => exact ⟨.initial, rfl, State.holds_settled _ _⟩
  | append_singleton items item inductionHypothesis =>
      obtain ⟨state, read, holds⟩ := inductionHypothesis wellFormed.front
      have isWellFormed : item.WellFormed := wellFormed.items item (by simp)
      obtain ⟨next, readNext, holdsNext⟩ := holds.read_item (Nat.min_le_left _ _) isWellFormed
        wellFormed.admits wellFormed.last_apart
      refine ⟨next, ?_, ?_⟩
      · rw [List.flatMap_append, List.foldlM_append, read, List.flatMap_singleton]
        exact readNext
      · rw [Given.ofItems_append_singleton, List.getLast?_append]
        exact holdsNext

end Line

namespace State

theorem close_escaped {state closed : State} (closes : state.close = .ok closed) :
    ({ state with wordsOnly := true } : State).close = .ok { closed with wordsOnly := true } := by
  obtain ⟨given, pending, wordsOnly⟩ := state
  cases pending with
  | none =>
      cases closes
      rfl
  | some pending =>
      simp only [close] at closes ⊢
      cases kept : given.keep pending.parameter pending.values with
      | error fault =>
          rw [kept] at closes
          cases closes
      | ok kept =>
          rw [kept] at closes
          cases closes
          rfl

/-- Behind two dashes, whatever comes next is the target. -/
theorem Holds.read_escaped {state : State} {given : Given} {waiting : Bool}
    (holds : state.Holds given waiting) (noTarget : given.targetDir = none) (target : Bytes) :
    [[dash, dash], target].foldlM State.read state =
      .ok ⟨given, some ⟨.targetDir, [target], false⟩, true⟩ := by
  have escaped : state.read [dash, dash] = .ok { state with wordsOnly := true } := by
    simp [read, holds.attentive]
  have free : ({ state with wordsOnly := true } : State).hasTarget = false := by
    have same := holds.hasTarget
    rw [noTarget] at same
    exact same
  have taken : ({ state with wordsOnly := true } : State).readTarget target =
      .ok ⟨given, some ⟨.targetDir, [target], false⟩, true⟩ := by
    rw [State.readTarget, free, if_neg Bool.false_ne_true, State.collect,
      close_escaped holds.closes]
    rfl
  rw [List.foldlM_cons, escaped]
  simp only [bind, Except.bind, List.foldlM_cons, read, if_true, taken]
  rfl

end State

/-- A line that is written as it should be says what its items say, in whatever order. -/
theorem parse_spelled {line : Line} (wellFormed : line.WellFormed) :
    parse line.spelled = .ok line.arguments := by
  obtain ⟨state, read, holds⟩ := wellFormed.unescaped.read_items
  rw [parse, Line.spelled, List.foldlM_append, read]
  cases escaped : line.escaped with
  | none =>
      have targets : line.targets = line.items.filterMap Item.target? := by
        simp [Line.targets, escaped]
      simp only [bind, Except.bind, List.foldlM_nil, pure, Except.pure, holds.closes]
      rw [Line.arguments, targets]
      rfl
  | some target =>
      have oneTarget := wellFormed.oneTarget
      rw [Line.targets, escaped, Option.toList_some, List.length_append, List.length_singleton]
        at oneTarget
      have none : line.items.filterMap Item.target? = [] :=
        List.eq_nil_of_length_eq_zero (by omega)
      have noTarget : (Given.ofItems line.items).targetDir = .none := by
        rw [Given.ofItems, none]
        rfl
      have targets : line.targets = [target] := by
        simp [Line.targets, escaped, none]
      simp only [bind, Except.bind, holds.read_escaped noTarget, State.close,
        Given.keep_targetDir (wellFormed.escaped target escaped), pure, Except.pure]
      rw [Line.arguments, targets]
      rfl

/-- A line with an item of every kind, and a target that looks like an option. -/
def fullLine : Line where
  items :=
    [.verboseLetters 1, .exclude "a=b", .fileName (.attached ""),
      .excludeAll true "dist" ["-", ""], .extension (.separate "=mjs"), .dryRun,
      .excludeAll false "node_modules" [], .verbose, .exclude "-x"]
  escaped := some (encode "--dry-run")

theorem parse_spelled_fullLine :
    fullLine.WellFormed ∧
      fullLine.spelled = ["-vv", "--exclude-dirs=a=b", "--file-name=", "-e", "dist", "-", "",
        "--extension", "=mjs", "--dry-run", "--exclude-dirs", "node_modules", "--verbose",
        "--exclude-dirs=-x", "--", "--dry-run"].map encode ∧
      parse fullLine.spelled = .ok ⟨some (.ofText "--dry-run"),
        ["a=b", "dist", "-", "", "node_modules", "-x"], "", "=mjs", true, 3⟩ := by
  have wellFormed : fullLine.WellFormed := by
    constructor <;> decide
  have meaning : fullLine.arguments = ⟨some (.ofText "--dry-run"),
      ["a=b", "dist", "-", "", "node_modules", "-x"], "", "=mjs", true, 3⟩ := by decide
  exact ⟨wellFormed, by decide, meaning ▸ parse_spelled wellFormed⟩

end ImportSuffix.CommandLine
