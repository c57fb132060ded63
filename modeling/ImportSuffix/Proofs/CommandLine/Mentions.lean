import ImportSuffix.Proofs.CommandLine.Reading

/-!
What a reader of the command line remembers.

A parameter is mentioned when its values are being collected or when they have been kept.  No
argument but two dashes turns what follows it into words, and no argument at all makes the reader
forget what has been mentioned.  Once it is closed, what has been mentioned is what has been given.
-/

namespace ImportSuffix.CommandLine

open Text

theorem exists_of_bind_eq_ok {Fault Value Result : Type} {first : Except Fault Value}
    {next : Value → Except Fault Result} {result : Result}
    (bound : first >>= next = .ok result) :
    ∃ value, first = .ok value ∧ next value = .ok result := by
  cases first with
  | error fault => cases bound
  | ok value => exact ⟨value, rfl, bound⟩

namespace Given

/-- Whether a parameter has been given. -/
def has (given : Given) : Parameter → Bool
  | .targetDir => given.targetDir.isSome
  | .excludeDirs => !given.excludeDirs.isEmpty
  | .fileName => given.fileName.isSome
  | .extension => given.extension.isSome
  | .dryRun => given.dryRun
  | .verbose => given.verbose != 0
  | .help | .version => false

variable {given kept : Given} {parameter : Parameter} {values : List Bytes}

theorem ne_nil_of_decodeAll {value : Bytes} {texts : List String}
    (decoded : decodeAll (value :: values) = .ok texts) : texts ≠ [] := by
  rw [decodeAll] at decoded
  split at decoded
  next => cases decoded
  next text _ =>
    cases others : decodeAll values with
    | error fault =>
        rw [others] at decoded
        cases decoded
    | ok texts =>
        rw [others] at decoded
        cases decoded
        exact List.cons_ne_nil _ _

/-- Values that are kept give their own parameter, and no other one. -/
theorem has_of_keep (keeps : given.keep parameter values = .ok kept) (other : Parameter) :
    kept.has other = (given.has other || parameter == other) := by
  cases values with
  | nil => cases parameter <;> cases keeps
  | cons value values =>
      cases parameter with
      | targetDir =>
          rw [keep] at keeps
          split at keeps
          next => cases keeps
          next =>
            cases keeps
            cases other <;> simp [has]
      | excludeDirs =>
          obtain ⟨names, decoded, keeps⟩ := exists_of_bind_eq_ok keeps
          cases keeps
          have some := ne_nil_of_decodeAll decoded
          cases other <;> simp [has, some]
      | fileName | extension =>
          obtain ⟨text, _, keeps⟩ := exists_of_bind_eq_ok keeps
          cases keeps
          cases other <;> simp [has]
      | dryRun | verbose | help | version => cases keeps

end Given

namespace State

/-- Whether a parameter has been given or is about to be. -/
def mentions (state : State) (parameter : Parameter) : Bool :=
  state.given.has parameter || state.pending.any fun pending => pending.parameter == parameter

/-- A step that forgets nothing. -/
structure Keeps (state next : State) : Prop where
  wordsOnly : next.wordsOnly = state.wordsOnly
  mentions : ∀ parameter, state.mentions parameter = true → next.mentions parameter = true

/-- A step that takes a parameter and forgets nothing. -/
structure Takes (state : State) (parameter : Parameter) (next : State) : Prop
    extends Keeps state next where
  mentioned : next.mentions parameter = true

variable {state between next : State} {parameter : Parameter}

theorem Keeps.refl (state : State) : state.Keeps state := ⟨rfl, fun _ => id⟩

theorem Keeps.trans (first : state.Keeps between) (second : between.Keeps next) :
    state.Keeps next where
  wordsOnly := second.wordsOnly.trans first.wordsOnly
  mentions parameter := second.mentions parameter ∘ first.mentions parameter

theorem Takes.keeps (first : state.Takes parameter between) (second : between.Keeps next) :
    state.Takes parameter next where
  toKeeps := first.toKeeps.trans second
  mentioned := second.mentions parameter first.mentioned

/-- What has been mentioned before is given once the reader is closed, and nothing else. -/
theorem eq_of_close (closed : state.close = .ok next) :
    next = ⟨next.given, none, state.wordsOnly⟩ ∧ next.given.has = state.mentions := by
  obtain ⟨given, pending, wordsOnly⟩ := state
  cases pending with
  | none =>
      cases closed
      refine ⟨rfl, funext fun parameter => ?_⟩
      simp [mentions]
  | some pending =>
      simp only [close] at closed
      split at closed
      next kept keeps =>
        cases closed
        refine ⟨rfl, funext fun parameter => ?_⟩
        rw [Given.has_of_keep keeps]
        simp [mentions]
      next => cases closed

theorem mentions_of_has (has : state.given.has parameter = true) :
    state.mentions parameter = true := by
  rw [mentions, has, Bool.true_or]

theorem keeps_of_close (closed : state.close = .ok next) : state.Keeps next := by
  obtain ⟨same, has⟩ := eq_of_close closed
  refine ⟨by rw [same], fun parameter mentioned => mentions_of_has ?_⟩
  rw [has, mentioned]

theorem takes_of_collect {pending : Pending} (collected : state.collect pending = .ok next) :
    state.Takes pending.parameter next := by
  obtain ⟨closed, closes, collected⟩ := exists_of_bind_eq_ok collected
  cases collected
  obtain ⟨same, has⟩ := eq_of_close closes
  refine ⟨⟨by rw [same], fun parameter mentioned => mentions_of_has ?_⟩, ?_⟩
  · rw [has, mentioned]
  · simp [mentions]

theorem takes_of_assign {value : Bytes} (assigned : state.assign parameter value = .ok next) :
    state.Takes parameter next := by
  obtain ⟨collected, collects, closed⟩ := exists_of_bind_eq_ok assigned
  exact (takes_of_collect collects).keeps (keeps_of_close closed)

theorem takes_of_raise (raised : state.raise parameter = .ok next) :
    state.Takes parameter next := by
  obtain ⟨closed, closes, raised⟩ := exists_of_bind_eq_ok raised
  obtain ⟨same, has⟩ := eq_of_close closes
  have forgetsNothing : ∀ other, state.mentions other = true → closed.given.has other = true := by
    intro other mentioned
    rw [has, mentioned]
  cases parameter with
  | dryRun =>
      dsimp only at raised
      split at raised
      next => cases raised
      next =>
        cases raised
        refine ⟨⟨by rw [same], fun other mentioned => mentions_of_has ?_⟩, mentions_of_has rfl⟩
        have given := forgetsNothing other mentioned
        cases other <;> first | rfl | exact given
  | verbose =>
      cases raised
      refine ⟨⟨by rw [same], fun other mentioned => mentions_of_has ?_⟩, mentions_of_has ?_⟩
      · have given := forgetsNothing other mentioned
        cases other <;> first | exact given | simp [Given.has, Arguments.verboseLimit]
      · simp [Given.has, Arguments.verboseLimit]
  | targetDir | excludeDirs | fileName | extension | help | version => cases raised

theorem takes_of_readTarget {word : Bytes} (took : state.readTarget word = .ok next) :
    state.Takes .targetDir next := by
  rw [readTarget] at took
  split at took
  next => cases took
  next => exact takes_of_collect took

theorem keeps_of_readWord {word : Bytes} (took : state.readWord word = .ok next) :
    state.Keeps next := by
  rw [readWord] at took
  split at took
  next pending =>
    cases took
    refine ⟨rfl, fun parameter mentioned => ?_⟩
    rw [mentions, pending] at mentioned
    exact mentioned
  next => exact (takes_of_readTarget took).toKeeps

theorem takes_of_readLong {bytes : Bytes} (took : state.readLong bytes = .ok next) :
    ∃ parameter, Parameter.ofLong? (bytes.takeWhile (· != equals)) = some parameter ∧
      state.Takes parameter next := by
  rw [readLong] at took
  cases known : Parameter.ofLong? (bytes.takeWhile (· != equals)) with
  | none =>
      simp only [known] at took
      cases took
  | some parameter =>
      refine ⟨parameter, rfl, ?_⟩
      cases behind : bytes.dropWhile (· != equals) with
      | nil =>
          simp only [known, behind] at took
          split at took
          next => exact takes_of_collect took
          next => exact takes_of_raise took
      | cons sign value =>
          simp only [known, behind] at took
          split at took
          next => exact takes_of_assign took
          next => cases took

/-- The run over the letters behind one dash, by induction on the letters. -/
theorem keeps_of_readShort {letters : Bytes} (took : state.readShort letters = .ok next) :
    state.Keeps next := by
  induction letters generalizing state with
  | nil =>
      cases took
      exact .refl _
  | cons letter rest inductionHypothesis =>
      rw [readShort.eq_def] at took
      dsimp only at took
      split at took
      next => cases took
      next parameter known =>
        split at took
        next takesValue =>
          cases rest with
          | nil => exact (takes_of_collect took).toKeeps
          | cons first others => exact (takes_of_assign took).toKeeps
        next =>
          obtain ⟨raised, raises, took⟩ := exists_of_bind_eq_ok took
          exact (takes_of_raise raises).toKeeps.trans (inductionHypothesis took)

/-- The step of one argument. -/
theorem keeps_of_read {argument : Bytes} (noEscape : argument ≠ [dash, dash])
    (took : state.read argument = .ok next) : state.Keeps next := by
  unfold read at took
  rw [if_neg noEscape] at took
  split at took
  next => exact (takes_of_readTarget took).toKeeps
  next =>
    split at took
    next first second rest =>
      split at took
      next =>
        obtain ⟨parameter, _, takes⟩ := takes_of_readLong took
        exact takes.toKeeps
      next =>
        split at took
        next => exact keeps_of_readShort took
        next => exact keeps_of_readWord took
    next => exact keeps_of_readWord took

/-- The run over all arguments, by induction on them. -/
theorem keeps_of_foldlM {arguments : List Bytes} (noEscape : [dash, dash] ∉ arguments)
    (took : arguments.foldlM State.read state = .ok next) : state.Keeps next := by
  induction arguments generalizing state with
  | nil =>
      cases took
      exact .refl _
  | cons argument rest inductionHypothesis =>
      obtain ⟨between, step, took⟩ := exists_of_bind_eq_ok took
      have otherwise : argument ≠ [dash, dash] := Ne.symm (List.ne_of_not_mem_cons noEscape)
      have noEscapeBehind := List.not_mem_of_not_mem_cons noEscape
      exact (keeps_of_read otherwise step).trans (inductionHypothesis noEscapeBehind took)

end State

/-- An option is among some arguments, by its long name, with or without a value behind an
equals sign. -/
def Parameter.UsedIn (parameter : Parameter) (arguments : List Bytes) : Prop :=
  ∃ name, parameter.longName? = some name ∧ ∃ argument ∈ arguments,
    argument = encode ("--" ++ name) ∨ encode ("--" ++ name ++ "=") <+: argument

namespace State

variable {state next : State} {parameter : Parameter}

theorem takes_of_read_name {name : String} {argument : Bytes} (attentive : state.wordsOnly = false)
    (long : parameter.longName? = some name)
    (names : argument = encode ("--" ++ name) ∨ encode ("--" ++ name ++ "=") <+: argument)
    (took : state.read argument = .ok next) : state.Takes parameter next := by
  have sign : encode "=" = [equals] := by decide
  have plain := Parameter.plain_encode long
  obtain ⟨value, isLong, isName⟩ : ∃ value, argument = encode "--" ++ (encode name ++ value) ∧
      (encode name ++ value).takeWhile (· != equals) = encode name := by
    rcases names with same | ⟨value, same⟩
    · refine ⟨[], ?_, ?_⟩
      · rw [same, encode_append, List.append_nil]
      · rw [List.append_nil, List.takeWhile_eq_self_iff.mpr plain]
    · refine ⟨equals :: value, ?_, ?_⟩
      · simp [← same, encode_append, sign]
      · rw [List.takeWhile_append_of_pos plain]
        simp
  have nonempty : encode name ++ value ≠ [] := by
    simp [Parameter.encode_ne_nil long]
  rw [isLong, read_long attentive nonempty] at took
  obtain ⟨known, isKnown, takes⟩ := takes_of_readLong took
  rw [isName, Parameter.ofLong?_encode long] at isKnown
  exact Option.some.inj isKnown ▸ takes

/-- Wherever it stands, an option is mentioned behind all the arguments it is among. -/
theorem mentions_of_usedIn {front : List Bytes} (noEscape : [dash, dash] ∉ front)
    (took : front.foldlM State.read .initial = .ok next) (used : parameter.UsedIn front) :
    next.mentions parameter = true := by
  obtain ⟨name, long, argument, member, names⟩ := used
  obtain ⟨before, behind, split⟩ := List.append_of_mem member
  rw [split, List.foldlM_append] at took
  rw [split, List.mem_append, List.mem_cons, not_or, not_or] at noEscape
  obtain ⟨noEscapeBefore, _, noEscapeBehind⟩ := noEscape
  obtain ⟨state, took, rest⟩ := exists_of_bind_eq_ok took
  obtain ⟨taken, takes, rest⟩ := exists_of_bind_eq_ok rest
  have attentive : state.wordsOnly = false := (keeps_of_foldlM noEscapeBefore took).wordsOnly
  have keeps := keeps_of_foldlM noEscapeBehind rest
  exact keeps.mentions parameter (takes_of_read_name attentive long names takes).mentioned

end State

end ImportSuffix.CommandLine
