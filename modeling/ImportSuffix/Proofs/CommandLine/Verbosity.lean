import ImportSuffix.Proofs.CommandLine.Decision

/-!
Requests for more output among other arguments.

A reader that has been asked for more output goes on as it would have otherwise.  A request ends
the values of the option in front of it; but these would have ended anyway, unless a word
follows that the option would take.  So everywhere else a request can be added, and all that it
says is how much output is asked for.
-/

namespace ImportSuffix.CommandLine

open Text

namespace Arguments

/-- What a command line says apart from how much output it asks for. -/
def quiet (arguments : Arguments) : Arguments := { arguments with verbose := 0 }

/-- The same with more requests for output on top. -/
def louder (more : Nat) (arguments : Arguments) : Arguments :=
  { arguments with verbose := min verboseLimit (arguments.verbose + more) }

theorem settings_eq_of_quiet {first second : Arguments} (same : first.quiet = second.quiet)
    (workingDirectory : Path) :
    first.settings workingDirectory = second.settings workingDirectory := by
  have quiet (arguments : Arguments) : arguments.quiet.settings workingDirectory =
      arguments.settings workingDirectory := rfl
  rw [← quiet first, same, quiet]

theorem louder_louder (first second : Nat) (arguments : Arguments) :
    (arguments.louder first).louder second = arguments.louder (first + second) := by
  have sum : min verboseLimit (min verboseLimit (arguments.verbose + first) + second) =
      min verboseLimit (arguments.verbose + (first + second)) := by
    omega
  exact congrArg (fun verbose => { arguments with verbose }) sum

end Arguments

namespace Given

def louder (more : Nat) (given : Given) : Given :=
  { given with verbose := min Arguments.verboseLimit (given.verbose + more) }

theorem keep_louder (more : Nat) (given : Given) (parameter : Parameter) (values : List Bytes) :
    (given.louder more).keep parameter values =
      (given.keep parameter values).map (louder more) := by
  cases values with
  | nil => cases parameter <;> rfl
  | cons value rest =>
      cases parameter with
      | targetDir => cases value <;> rfl
      | excludeDirs =>
          dsimp only [keep]
          cases decodeAll (value :: rest) <;> rfl
      | fileName =>
          have same : (given.louder more).fileName = given.fileName := rfl
          dsimp only [keep]
          rw [same]
          cases only .fileName given.fileName value <;> rfl
      | extension =>
          have same : (given.louder more).extension = given.extension := rfl
          dsimp only [keep]
          rw [same]
          cases only .extension given.extension value <;> rfl
      | dryRun | verbose | help | version => rfl

end Given

namespace State

def louder (more : Nat) (state : State) : State := { state with given := state.given.louder more }

section

variable (more : Nat) (state : State)

theorem close_louder : (state.louder more).close = state.close.map (louder more) := by
  obtain ⟨given, pending, wordsOnly⟩ := state
  cases pending with
  | none => rfl
  | some pending =>
      have kept := given.keep_louder more pending.parameter pending.values
      simp only [close, louder] at kept ⊢
      rw [kept]
      cases given.keep pending.parameter pending.values <;> rfl

theorem collect_louder (pending : Pending) :
    (state.louder more).collect pending = (state.collect pending).map (louder more) := by
  rw [collect, collect, close_louder]
  cases state.close <;> rfl

theorem assign_louder (parameter : Parameter) (value : Bytes) :
    (state.louder more).assign parameter value =
      (state.assign parameter value).map (louder more) := by
  rw [assign, assign, collect_louder]
  cases state.collect ⟨parameter, [value], false⟩ with
  | error halt => rfl
  | ok collected => exact collected.close_louder more

theorem raise_louder (parameter : Parameter) :
    (state.louder more).raise parameter = (state.raise parameter).map (louder more) := by
  rw [raise, raise, close_louder]
  cases state.close with
  | error halt => rfl
  | ok closed =>
      cases parameter with
      | dryRun =>
          obtain ⟨⟨_, _, _, _, dryRun, _⟩, pending, wordsOnly⟩ := closed
          cases dryRun <;> rfl
      | verbose =>
          have sum : min Arguments.verboseLimit
                (min Arguments.verboseLimit (closed.given.verbose + more) + 1) =
              min Arguments.verboseLimit
                (min Arguments.verboseLimit (closed.given.verbose + 1) + more) := by
            omega
          exact congrArg (fun verbose => Except.ok
            ({ closed with given := { closed.given with verbose } } : State)) sum
      | targetDir | excludeDirs | fileName | extension | help | version => rfl

theorem readTarget_louder (word : Bytes) :
    (state.louder more).readTarget word = (state.readTarget word).map (louder more) := by
  have same : (state.louder more).hasTarget = state.hasTarget := rfl
  rw [readTarget, readTarget, same, collect_louder]
  cases state.hasTarget <;> rfl

theorem readWord_louder (word : Bytes) :
    (state.louder more).readWord word = (state.readWord word).map (louder more) := by
  obtain ⟨given, pending, wordsOnly⟩ := state
  cases pending with
  | none => exact readTarget_louder more _ word
  | some pending =>
      obtain ⟨parameter, values, collecting⟩ := pending
      cases collecting with
      | false => exact readTarget_louder more _ word
      | true => rfl

theorem readLong_louder (argument : Bytes) :
    (state.louder more).readLong argument = (state.readLong argument).map (louder more) := by
  unfold readLong
  dsimp only
  split
  next => rfl
  next parameter _ _ =>
    rw [collect_louder, raise_louder]
    cases parameter.takesValue <;> rfl
  next parameter _ value _ _ =>
    rw [assign_louder]
    cases parameter.takesValue <;> rfl

theorem readShort_louder (letters : Bytes) :
    (state.louder more).readShort letters = (state.readShort letters).map (louder more) := by
  induction letters generalizing state with
  | nil => rfl
  | cons letter rest inductionHypothesis =>
      rw [readShort.eq_def, readShort.eq_def]
      dsimp only
      cases Parameter.ofShort? letter with
      | none => rfl
      | some parameter =>
          dsimp only
          cases parameter.takesValue with
          | true =>
              cases rest with
              | nil => exact state.collect_louder more _
              | cons first others => exact state.assign_louder more _ _
          | false =>
              simp only [Bool.false_eq_true, if_false]
              rw [raise_louder]
              cases state.raise parameter with
              | error halt => rfl
              | ok raised => exact inductionHypothesis raised

/-- The step of one argument. -/
theorem read_louder (argument : Bytes) :
    (state.louder more).read argument = (state.read argument).map (louder more) := by
  have same : (state.louder more).wordsOnly = state.wordsOnly := rfl
  unfold read
  rw [same]
  split
  next => exact state.readTarget_louder more argument
  next =>
    split
    next => rfl
    next =>
      split
      next =>
        split
        next => exact state.readLong_louder more _
        next =>
          split
          next => exact state.readShort_louder more _
          next => exact state.readWord_louder more _
      next => exact state.readWord_louder more argument

/-- The run over all arguments, by induction on them. -/
theorem foldlM_louder (arguments : List Bytes) :
    arguments.foldlM State.read (state.louder more) =
      (arguments.foldlM State.read state).map (louder more) := by
  induction arguments generalizing state with
  | nil => rfl
  | cons argument rest inductionHypothesis =>
      rw [List.foldlM_cons, List.foldlM_cons, read_louder]
      cases state.read argument with
      | error halt => rfl
      | ok next => exact inductionHypothesis next

end

section

variable {state closed : State} (closes : state.close = .ok closed)
include closes

theorem close_closed : closed.close = .ok closed := by
  rw [(eq_of_close closes).1]
  rfl

theorem wordsOnly_closed : closed.wordsOnly = state.wordsOnly := by
  rw [(eq_of_close closes).1]

theorem hasTarget_closed : closed.hasTarget = state.hasTarget := by
  obtain ⟨same, has⟩ := eq_of_close closes
  have target : closed.given.targetDir.isSome = state.hasTarget := congrFun has .targetDir
  rw [same, hasTarget, target]
  exact Bool.or_false _

theorem collect_closed (pending : Pending) : closed.collect pending = state.collect pending := by
  rw [collect, collect, closes, close_closed closes]

theorem assign_closed (parameter : Parameter) (value : Bytes) :
    closed.assign parameter value = state.assign parameter value := by
  rw [assign, assign, collect_closed closes]

theorem raise_closed (parameter : Parameter) : closed.raise parameter = state.raise parameter := by
  rw [raise, raise, closes, close_closed closes]

theorem readTarget_closed (word : Bytes) : closed.readTarget word = state.readTarget word := by
  rw [readTarget, readTarget, hasTarget_closed closes, collect_closed closes]

theorem readLong_closed (argument : Bytes) :
    closed.readLong argument = state.readLong argument := by
  unfold readLong
  simp only [collect_closed closes, raise_closed closes, assign_closed closes]

theorem readShort_closed (letter : UInt8) (rest : Bytes) :
    closed.readShort (letter :: rest) = state.readShort (letter :: rest) := by
  rw [readShort.eq_def, readShort.eq_def]
  simp only [collect_closed closes, raise_closed closes, assign_closed closes]

theorem readWord_closed (word : Bytes)
    (free : ∀ pending, state.pending = some pending → pending.collecting = false) :
    closed.readWord word = state.readWord word := by
  have settled : closed.readWord word = closed.readTarget word := by
    rw [(eq_of_close closes).1]
    rfl
  rw [settled, readTarget_closed closes]
  unfold readWord
  split
  next collecting => cases free _ collecting
  next => rfl

end

/-- Whether a reader that is closed early reads what follows as it would have: it does so unless
the option that was open would have taken the next word. -/
def Free (state : State) (arguments : List Bytes) : Prop :=
  state.wordsOnly = false →
    (∀ pending, state.pending = some pending → pending.collecting = false) ∨
      ∀ argument ∈ arguments.head?, ¬IsWord argument

section

variable {state closed : State} (closes : state.close = .ok closed)
include closes

theorem read_closed {argument : Bytes} {rest : List Bytes} (free : state.Free (argument :: rest))
    (noEscape : state.wordsOnly = false → argument ≠ [dash, dash]) :
    closed.read argument = state.read argument := by
  have sameWords := wordsOnly_closed closes
  cases wordsOnly : state.wordsOnly with
  | true =>
      unfold read
      rw [sameWords, wordsOnly, if_pos rfl, if_pos rfl, readTarget_closed closes]
  | false =>
      by_cases isWord : IsWord argument
      · have notCollecting := (free wordsOnly).resolve_right fun noWord =>
          noWord argument rfl isWord
        rw [read_word wordsOnly isWord, read_word (sameWords.trans wordsOnly) isWord,
          readWord_closed closes argument notCollecting]
      · obtain ⟨first, notAlone⟩ := Classical.not_imp.mp isWord
        obtain ⟨letters, whole⟩ := List.head?_eq_some_iff.mp first
        cases letters with
        | nil => exact absurd whole notAlone
        | cons letter letters =>
            have notEscape := noEscape wordsOnly
            unfold read
            rw [sameWords, wordsOnly, if_neg Bool.false_ne_true, if_neg Bool.false_ne_true,
              if_neg notEscape, if_neg notEscape, whole]
            simp only [readLong_closed closes, readShort_closed closes, true_and, if_true]

/-- The run over all arguments, by induction on them: only two dashes leave the reader open. -/
theorem foldlM_closed {arguments : List Bytes} (free : state.Free arguments) :
    (arguments.foldlM State.read closed >>= close) =
      (arguments.foldlM State.read state >>= close) := by
  induction arguments generalizing state closed with
  | nil => exact (close_closed closes).trans closes.symm
  | cons argument rest inductionHypothesis =>
      rw [List.foldlM_cons, List.foldlM_cons]
      by_cases escape : state.wordsOnly = false ∧ argument = [dash, dash]
      · obtain ⟨attentive, isEscape⟩ := escape
        have attentiveClosed := (wordsOnly_closed closes).trans attentive
        have opened : state.read argument = .ok { state with wordsOnly := true } := by
          simp [read, attentive, isEscape]
        have openedClosed : closed.read argument = .ok { closed with wordsOnly := true } := by
          simp [read, attentiveClosed, isEscape]
        rw [opened, openedClosed]
        refine inductionHypothesis (close_escaped closes) ?_
        intro attentiveToo
        cases attentiveToo
      · rw [read_closed closes free fun attentive isEscape => escape ⟨attentive, isEscape⟩]

end

end State

/-- Behind some arguments, no option waits for one more word. -/
def Settled (front : List Bytes) : Prop :=
  ∀ state, front.foldlM State.read .initial = .ok state →
    ∀ pending, state.pending = some pending → pending.collecting = false

theorem parse_eq (arguments : List Bytes) :
    parse arguments =
      ((arguments.foldlM State.read .initial >>= State.close).map fun state =>
        state.given.arguments) := by
  unfold parse
  cases arguments.foldlM State.read .initial with
  | error halt => rfl
  | ok state => rfl

theorem finish_louder (more : Nat) (state : State) (arguments : List Bytes) :
    ((arguments.foldlM State.read (state.louder more) >>= State.close).map fun state =>
        state.given.arguments) =
      ((arguments.foldlM State.read state >>= State.close).map fun state =>
        state.given.arguments).map (Arguments.louder more) := by
  rw [State.foldlM_louder]
  cases arguments.foldlM State.read state with
  | error halt => rfl
  | ok last =>
      change ((last.louder more).close.map _) = (last.close.map _).map _
      rw [State.close_louder]
      cases last.close <;> rfl

/-- A request closes the reader and adds to what it has been given. -/
theorem State.Holds.read_request {state : State} {given : Given} {waiting : Bool}
    (holds : state.Holds given waiting) {request : Item} (asks : request.verbosity ≠ 0) :
    request.spelled.foldlM State.read state =
      .ok (State.louder request.verbosity ⟨given, none, false⟩) := by
  cases request with
  | verbose =>
      have long : Parameter.verbose.longName? = some "verbose" := rfl
      rw [Item.spelled, List.foldlM_cons, show "--verbose" = "--" ++ "verbose" from rfl,
        holds.read_name long, Parameter.takesValue, if_neg Bool.false_ne_true,
        holds.raise_verbose]
      rfl
  | verboseLetters others =>
      rw [Item.spelled, List.foldlM_cons, holds.read_verboseLetters]
      rfl
  | _ => exact absurd rfl asks

/-- A request for more output says nothing else, wherever it is added.  It must not part an
option from a word that the option would take. -/
theorem parse_louder {front back : List Bytes} {request : Item} (complete : Complete front)
    (asks : request.verbosity ≠ 0)
    (apart : Settled front ∨ ∀ argument ∈ back.head?, ¬IsWord argument) :
    parse (front ++ request.spelled ++ back) =
      (parse (front ++ back)).map (Arguments.louder request.verbosity) := by
  obtain ⟨state, given, took, holds, _⟩ := complete.reader
  have free : state.Free back := fun _ => apart.imp_left fun settled => settled state took
  have without : (front ++ back).foldlM State.read .initial = back.foldlM State.read state := by
    rw [List.foldlM_append, took]
    rfl
  have withRequest : (front ++ request.spelled ++ back).foldlM State.read .initial =
      back.foldlM State.read (State.louder request.verbosity ⟨given, none, false⟩) := by
    rw [List.append_assoc, List.foldlM_append, took]
    change (request.spelled ++ back).foldlM State.read state = _
    rw [List.foldlM_append, holds.read_request asks]
    rfl
  rw [parse_eq, parse_eq, withRequest, without, ← State.foldlM_closed holds.closes free,
    finish_louder]

/-- No command line asks for more output than matters. -/
theorem parse_louder_zero (words : List Bytes) :
    parse words = (parse words).map (Arguments.louder 0) := by
  have initial : State.initial = State.initial.louder 0 := rfl
  conv_lhs => rw [parse_eq, initial, finish_louder, ← parse_eq]

/-- A command line with more requests for output, so many in all, each of which has been added
where it says nothing else. -/
inductive Adds (words : List Bytes) : Nat → List Bytes → Prop where
  | nothing : Adds words 0 words
  | request {total front back} {request : Item} : Adds words total (front ++ back) →
      Complete front → request.verbosity ≠ 0 →
      (Settled front ∨ ∀ argument ∈ back.head?, ¬IsWord argument) →
      Adds words (total + request.verbosity) (front ++ request.spelled ++ back)

/-- The meaning of a line with many requests, by induction on these. -/
theorem Adds.parse_eq {words longer : List Bytes} {total : Nat} (adds : Adds words total longer) :
    parse longer = (parse words).map (Arguments.louder total) := by
  induction adds with
  | nothing => exact parse_louder_zero words
  | request _ complete asks apart inductionHypothesis =>
      rw [parse_louder complete asks apart, inductionHypothesis]
      cases parse words with
      | error halt => rfl
      | ok arguments => exact congrArg Except.ok (arguments.louder_louder _ _)

end ImportSuffix.CommandLine
