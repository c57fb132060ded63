import ImportSuffix.Proofs.CommandLine.Line
import Mathlib.Data.List.TakeWhile

/-!
How single options and words are read.

Between two of them, a reader may still wait for more words, or for an argument that closes
the last option.  What counts is what it has been given once it is closed.
-/

namespace ImportSuffix.CommandLine

open Text

namespace Parameter

variable {parameter : Parameter} {name : String}

theorem ofLong?_encode (long : parameter.longName? = some name) :
    ofLong? (encode name) = some parameter := by
  cases parameter <;> cases long <;> decide

theorem plain_encode (long : parameter.longName? = some name) :
    ∀ byte ∈ encode name, (byte != State.equals) = true := by
  apply List.all_eq_true.mp
  cases parameter <;> cases long <;> decide

theorem encode_ne_nil (long : parameter.longName? = some name) : encode name ≠ [] := by
  cases parameter <;> cases long <;> decide

theorem ofShort?_toUInt8 {letter : Char} (short : parameter.shortName? = some letter) :
    ofShort? letter.toUInt8 = some parameter := by
  cases parameter <;> cases short <;> decide

theorem plain_letter {letter : Char} (short : parameter.shortName? = some letter) :
    letter.toNat < 128 ∧ letter ≠ '-' := by
  cases parameter <;> cases short <;> decide

end Parameter

namespace Given

variable {given : Given}

theorem decodeAll_encode (texts : List String) : decodeAll (texts.map encode) = .ok texts := by
  induction texts with
  | nil => rfl
  | cons text rest inductionHypothesis =>
      rw [List.map_cons, decodeAll, decode?_encode]
      simp only [inductionHypothesis]
      rfl

theorem keep_excludeDirs (name : String) (others : List String) :
    given.keep .excludeDirs ((name :: others).map encode) =
      .ok { given with excludeDirs := given.excludeDirs ++ name :: others } := by
  have decoded := decodeAll_encode (name :: others)
  rw [List.map_cons] at *
  rw [keep, decoded]
  rfl

theorem keep_fileName (first : given.fileName = none) (text : String) :
    given.keep .fileName [encode text] = .ok { given with fileName := some text } := by
  simp only [keep, only, first, decode?_encode]
  rfl

theorem keep_extension (first : given.extension = none) (text : String) :
    given.keep .extension [encode text] = .ok { given with extension := some text } := by
  simp only [keep, only, first, decode?_encode]
  rfl

theorem keep_targetDir {word : Bytes} (nonempty : word ≠ []) :
    given.keep .targetDir [word] = .ok { given with targetDir := some ⟨word⟩ } := by
  simp [keep, nonempty]

end Given

namespace State

section

variable {state : State} {parameter : Parameter} {name : String} {word : Bytes}

theorem readLong_name (long : parameter.longName? = some name) :
    state.readLong (encode name) =
      if parameter.takesValue then state.collect ⟨parameter, [], true⟩
      else state.raise parameter := by
  have plain := Parameter.plain_encode long
  simp only [readLong, List.takeWhile_eq_self_iff.mpr plain, List.dropWhile_eq_nil_iff.mpr plain,
    Parameter.ofLong?_encode long]

theorem readLong_value (long : parameter.longName? = some name)
    (takes : parameter.takesValue = true) (value : Bytes) :
    state.readLong (encode name ++ equals :: value) = state.assign parameter value := by
  have plain := Parameter.plain_encode long
  have behind : (encode name ++ equals :: value).dropWhile (· != equals) = equals :: value := by
    rw [List.dropWhile_append_of_pos plain]
    simp
  have front : (encode name ++ equals :: value).takeWhile (· != equals) = encode name := by
    rw [List.takeWhile_append_of_pos plain]
    simp
  simp only [readLong, behind, front, Parameter.ofLong?_encode long, takes, if_true]

theorem read_long (attentive : state.wordsOnly = false) {bytes : Bytes} (nonempty : bytes ≠ []) :
    state.read (encode "--" ++ bytes) = state.readLong bytes := by
  have dashes : encode "--" = [dash, dash] := by decide
  simp [read, attentive, nonempty, dashes]

theorem read_name (attentive : state.wordsOnly = false) (long : parameter.longName? = some name) :
    state.read (encode ("--" ++ name)) =
      if parameter.takesValue then state.collect ⟨parameter, [], true⟩
      else state.raise parameter := by
  rw [encode_append, read_long attentive (Parameter.encode_ne_nil long), readLong_name long]

theorem read_attached (attentive : state.wordsOnly = false)
    (long : parameter.longName? = some name) (takes : parameter.takesValue = true)
    (text : String) :
    state.read (encode ("--" ++ name ++ "=" ++ text)) =
      state.assign parameter (encode text) := by
  have sign : encode "=" = [equals] := by decide
  rw [encode_append, encode_append, encode_append, sign, List.append_assoc, List.append_assoc,
    read_long attentive (by simp), List.singleton_append, readLong_value long takes]

theorem encode_letter {letter : Char} (ascii : letter.toNat < 128) :
    String.utf8EncodeChar letter = [letter.toUInt8] :=
  String.utf8EncodeChar_eq_singleton (Char.utf8Size_eq_one_iff.mpr (Nat.le_of_lt_succ ascii))

/-- One dash and a letter, with whatever is behind them in the same argument. -/
theorem read_letter (attentive : state.wordsOnly = false) {letter : Char}
    (ascii : letter.toNat < 128) (noDash : letter ≠ '-') (rest : Bytes) :
    state.read (encode ("-" ++ String.singleton letter) ++ rest) =
      state.readShort (letter.toUInt8 :: rest) := by
  have spelled : encode ("-" ++ String.singleton letter) = [dash, letter.toUInt8] := by
    rw [encode_append, encode_eq_flatMap (String.singleton letter), String.toList_singleton,
      List.flatMap_singleton, encode_letter ascii]
    rfl
  have noDashByte : letter.toUInt8 ≠ dash := by
    intro same
    apply noDash
    apply Char.toNat_inj.mp
    rw [← toNat_toUInt8 ascii, same]
    rfl
  rw [spelled, List.cons_append, List.singleton_append, read]
  simp [attentive, noDashByte]

theorem read_word (attentive : state.wordsOnly = false) (isWord : IsWord word) :
    state.read word = state.readWord word := by
  obtain _ | ⟨first, _ | ⟨second, rest⟩⟩ := word
  · simp [read, attentive]
  · simp [read, attentive]
  · have noDash : first ≠ dash := by
      rintro rfl
      have alone := isWord rfl
      simp at alone
    simp [read, attentive, noDash]

end

/-- Closed, the reader has been given something.  Whether it waits for more words, and
whether it has a target, is known without closing it. -/
structure Holds (state : State) (given : Given) (waiting : Bool) : Prop where
  closes : state.close = .ok ⟨given, none, false⟩
  attentive : state.wordsOnly = false
  hasTarget : state.hasTarget = given.targetDir.isSome
  waiting : ∀ pending, state.pending = some pending → pending.collecting = true → waiting = true

theorem holds_settled (given : Given) (waiting : Bool) :
    State.Holds ⟨given, none, false⟩ given waiting where
  closes := rfl
  attentive := rfl
  hasTarget := by simp [State.hasTarget]
  waiting := by simp

section

variable {given kept : Given} {parameter : Parameter} {values : List Bytes}

theorem holds_pending (keeps : given.keep parameter values = .ok kept)
    (target : kept.targetDir.isSome = (given.targetDir.isSome || parameter == .targetDir))
    (collecting : Bool) :
    State.Holds ⟨given, some ⟨parameter, values, collecting⟩, false⟩ kept collecting where
  closes := by simp only [close, keeps]
  attentive := rfl
  hasTarget := by simp [State.hasTarget, target]
  waiting := by simp

variable {state : State} {waiting : Bool} (holds : state.Holds given waiting)
include holds

theorem Holds.collect (pending : Pending) :
    state.collect pending = .ok ⟨given, some pending, false⟩ := by
  rw [State.collect, holds.closes]
  rfl

theorem Holds.assign {value : Bytes} (keeps : given.keep parameter [value] = .ok kept) :
    state.assign parameter value = .ok ⟨kept, none, false⟩ := by
  rw [State.assign, holds.collect]
  simp only [bind, Except.bind, close, keeps]

theorem Holds.raise_verbose :
    state.raise .verbose = .ok ⟨{ given with
      verbose := min Arguments.verboseLimit (given.verbose + 1) }, none, false⟩ := by
  rw [State.raise, holds.closes]
  rfl

theorem Holds.raise_dryRun (first : given.dryRun = false) :
    state.raise .dryRun = .ok ⟨{ given with dryRun := true }, none, false⟩ := by
  rw [State.raise, holds.closes]
  simp only [bind, Except.bind, first, Bool.false_eq_true, if_false]
  rfl

theorem Holds.readTarget (noTarget : given.targetDir = none) (word : Bytes) :
    state.readTarget word = .ok ⟨given, some ⟨.targetDir, [word], false⟩, false⟩ := by
  rw [State.readTarget, holds.hasTarget, noTarget]
  simp only [Option.isSome_none, Bool.false_eq_true, if_false]
  exact holds.collect _

variable {name : String}

theorem Holds.read_name (long : parameter.longName? = some name) :
    state.read (encode ("--" ++ name)) =
      if parameter.takesValue then .ok ⟨given, some ⟨parameter, [], true⟩, false⟩
      else state.raise parameter := by
  rw [State.read_name holds.attentive long, holds.collect]

theorem Holds.read_attached (long : parameter.longName? = some name)
    (takes : parameter.takesValue = true) {text : String}
    (keeps : given.keep parameter [encode text] = .ok kept) :
    state.read (encode ("--" ++ name ++ "=" ++ text)) = .ok ⟨kept, none, false⟩ := by
  rw [State.read_attached holds.attentive long takes, holds.assign keeps]

/-- A value that is a word of its own is not looked at before it is closed. -/
theorem Holds.read_separate (long : parameter.longName? = some name)
    (takes : parameter.takesValue = true) (single : parameter.takesMore = false) {text : String}
    (isWord : IsWord (encode text)) :
    [encode ("--" ++ name), encode text].foldlM State.read state =
      .ok ⟨given, some ⟨parameter, [encode text], false⟩, false⟩ := by
  rw [List.foldlM_cons, holds.read_name long, takes]
  simp only [if_true, bind, Except.bind, List.foldlM_cons, List.foldlM_nil, read_word _ isWord,
    readWord, single]
  rfl

/-- An option with one value gets it from its own argument or from the next one. -/
theorem Holds.read_written (long : parameter.longName? = some name)
    (takes : parameter.takesValue = true) (single : parameter.takesMore = false)
    {written : Written} (wellFormed : written.WellFormed)
    (keeps : given.keep parameter [encode written.text] = .ok kept)
    (target : kept.targetDir.isSome = (given.targetDir.isSome || parameter == .targetDir)) :
    ∃ next, (written.spelled ("--" ++ name)).foldlM State.read state = .ok next ∧
      next.Holds kept false := by
  cases written with
  | attached text =>
      rw [Written.text] at keeps
      refine ⟨⟨kept, none, false⟩, ?_, holds_settled kept false⟩
      rw [Written.spelled, List.foldlM_cons, holds.read_attached long takes keeps]
      rfl
  | separate text =>
      exact ⟨_, holds.read_separate long takes single wellFormed, holds_pending keeps target false⟩

theorem Holds.readShort_verbose (others : Nat) :
    state.readShort (List.replicate (others + 1) (Char.toUInt8 'v')) = .ok ⟨{ given with
      verbose := min Arguments.verboseLimit (given.verbose + (others + 1)) }, none, false⟩ := by
  have letter : Parameter.ofShort? (Char.toUInt8 'v') = some .verbose :=
    Parameter.ofShort?_toUInt8 rfl
  induction others generalizing state given waiting with
  | zero =>
      rw [List.replicate_succ, readShort, letter]
      simp only [Parameter.takesValue, Bool.false_eq_true, if_false, holds.raise_verbose]
      rfl
  | succ others inductionHypothesis =>
      rw [List.replicate_succ, readShort, letter]
      simp only [Parameter.takesValue, Bool.false_eq_true, if_false, holds.raise_verbose, bind,
        Except.bind]
      rw [inductionHypothesis (holds_settled _ waiting)]
      have total : min Arguments.verboseLimit
          (min Arguments.verboseLimit (given.verbose + 1) + (others + 1)) =
          min Arguments.verboseLimit (given.verbose + (others + 1 + 1)) := by omega
      rw [total]

end

/-- All words behind an option that takes more of them are its values. -/
theorem read_words {given : Given} {words : List String}
    (areWords : ∀ word ∈ words, IsWord (encode word)) (values : List Bytes) :
    (words.map encode).foldlM State.read ⟨given, some ⟨.excludeDirs, values, true⟩, false⟩ =
      .ok ⟨given, some ⟨.excludeDirs, values ++ words.map encode, true⟩, false⟩ := by
  induction words generalizing values with
  | nil => simp [pure, Except.pure]
  | cons word rest inductionHypothesis =>
      obtain ⟨isWord, areWordsRest⟩ := List.forall_mem_cons.mp areWords
      rw [List.map_cons, List.foldlM_cons, read_word rfl isWord, readWord]
      simp only [bind, Except.bind, Parameter.takesMore]
      rw [inductionHypothesis areWordsRest, List.append_assoc]
      rfl

end State

end ImportSuffix.CommandLine
