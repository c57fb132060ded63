import ImportSuffix.Proofs.CommandLine.Meaning
import ImportSuffix.Proofs.CommandLine.Mentions

/-!
The argument that decides.

Arguments that would do on their own leave the reader where it takes the next argument for what
it is.  A request for help, an argument that means nothing or a second use of what can be given
once then settles the command line, whatever comes behind it.
-/

namespace ImportSuffix.CommandLine

open Text

/-- The option of an item that can be given once. -/
def Item.single? : Item → Option Parameter
  | fileName _ => some .fileName
  | extension _ => some .extension
  | dryRun => some .dryRun
  | _ => none

/-- Arguments that would do on their own, and behind which an option would still be one. -/
structure Complete (front : List Bytes) : Prop where
  noEscape : [State.dash, State.dash] ∉ front
  accepted : ∃ arguments, parse front = .ok arguments

/-- Where the reader stands behind complete arguments. -/
theorem Complete.reader {front : List Bytes} (complete : Complete front) :
    ∃ state given, front.foldlM State.read .initial = .ok state ∧ state.Holds given true ∧
      ∀ parameter : Parameter, parameter.UsedIn front → given.has parameter = true := by
  obtain ⟨arguments, accepted⟩ := complete.accepted
  obtain ⟨state, took, accepted⟩ := exists_of_bind_eq_ok accepted
  obtain ⟨closed, closes, _⟩ := exists_of_bind_eq_ok accepted
  have attentive : state.wordsOnly = false :=
    (State.keeps_of_foldlM complete.noEscape took).wordsOnly
  obtain ⟨same, has⟩ := State.eq_of_close closes
  refine ⟨state, closed.given, took, ⟨?_, attentive, ?_, fun _ _ _ => rfl⟩, ?_⟩
  · rw [closes, same, attentive]
  · exact (congrFun has .targetDir).symm
  · intro parameter used
    rw [has]
    exact State.mentions_of_usedIn complete.noEscape took used

theorem Parameter.ofLong?_eq_none {name : String}
    (unknown : ∀ parameter : Parameter, parameter.longName? ≠ some name) :
    ofLong? (encode name) = none := by
  rw [ofLong?, List.find?_eq_none]
  intro parameter _ found
  obtain ⟨other, long, same⟩ := Option.map_eq_some_iff.mp (beq_iff_eq.mp found)
  exact unknown parameter (encode_inj.mp same ▸ long)

theorem Parameter.ofShort?_eq_none {letter : Char} (ascii : letter.toNat < 128)
    (unknown : ∀ parameter : Parameter, parameter.shortName? ≠ some letter) :
    ofShort? letter.toUInt8 = none := by
  rw [ofShort?, List.find?_eq_none]
  intro parameter _ found
  obtain ⟨other, short, same⟩ := Option.map_eq_some_iff.mp (beq_iff_eq.mp found)
  have asciiOther := (plain_letter short).1
  have same : other = letter := by
    apply Char.toNat_inj.mp
    rw [← toNat_toUInt8 asciiOther, same, toNat_toUInt8 ascii]
  exact unknown parameter (same ▸ short)

theorem toNat_lt_of_isAlphanum {letter : Char} (alphanumeric : letter.isAlphanum = true) :
    letter.toNat < 128 := by
  have below {last : Char} (within : letter.val ≤ last.val) (ascii : last.toNat < 128) :
      letter.toNat < 128 := Nat.lt_of_le_of_lt (UInt32.le_iff_toNat_le.mp within) ascii
  rcases Bool.or_eq_true_iff.mp alphanumeric with alphabetic | digit
  · rcases Bool.or_eq_true_iff.mp alphabetic with upper | lower
    · exact below (of_decide_eq_true upper).2 (by decide)
    · exact below (of_decide_eq_true (Bool.and_eq_true_iff.mp lower).2) (by decide)
  · exact below (of_decide_eq_true (Bool.and_eq_true_iff.mp digit).2) (by decide)

theorem Given.only_again {parameter : Parameter} {earlier : Option String}
    (again : earlier.isSome = true) (value : Bytes) :
    only parameter earlier value = .error (.repeated parameter) := by
  obtain ⟨text, isGiven⟩ := Option.isSome_iff_exists.mp again
  rw [isGiven]
  rfl

namespace State

section

variable {state : State}

/-- A long name that no parameter has means nothing, whatever value it has. -/
theorem read_unknownName (attentive : state.wordsOnly = false) {name : String}
    (nonempty : name ≠ "") (plain : '=' ∉ name.toList)
    (unknown : ∀ parameter : Parameter, parameter.longName? ≠ some name) {value : Bytes}
    (valued : ∀ first ∈ value.head?, first = equals) :
    state.read (encode ("--" ++ name) ++ value) =
      .error (.misuse (.unknownArgument ("--" ++ name))) := by
  have plainBytes : ∀ byte ∈ encode name, (byte != equals) = true := by
    intro byte member
    rw [bne_iff_ne]
    rintro rfl
    exact plain (mem_toList_of_mem_encode (by decide) member)
  have isName : (encode name ++ value).takeWhile (· != equals) = encode name := by
    rw [List.takeWhile_append_of_pos plainBytes]
    cases value with
    | nil => exact List.append_nil _
    | cons first rest =>
        simp [valued first rfl]
  have someBytes : encode name ++ value ≠ [] := by
    intro nothing
    have noName : encode name = encode "" := (List.append_eq_nil_iff.mp nothing).1
    exact nonempty (encode_inj.mp noName)
  rw [encode_append, List.append_assoc, read_long attentive someBytes, readLong, isName,
    Parameter.ofLong?_eq_none unknown, display_encode]

theorem readShort_unknown {letter : Char} (ascii : letter.toNat < 128)
    (unknown : ∀ parameter : Parameter, parameter.shortName? ≠ some letter) :
    state.readShort [letter.toUInt8] =
      .error (.misuse (.unknownArgument ("-" ++ String.singleton letter))) := by
  have first : firstChar? [letter.toUInt8] = some letter := by
    rw [← encode_letter ascii, ← List.append_nil (String.utf8EncodeChar letter),
      firstChar?_append]
  rw [readShort, Parameter.ofShort?_eq_none ascii unknown]
  simp only [shownLetter, first]

end

section

variable {state : State} {given : Given} {waiting : Bool} (holds : state.Holds given waiting)
include holds

variable {parameter : Parameter} {halt : Halt} {name : String}

/-- A parameter that halts the reader does so by its name and by its letter. -/
theorem Holds.read_halting {letter : Char} (noValue : parameter.takesValue = false)
    (long : parameter.longName? = some name) (short : parameter.shortName? = some letter)
    (halts : state.raise parameter = .error halt) :
    ∀ written ∈ ["--" ++ name, "-" ++ String.singleton letter],
      state.read (encode written) = .error halt := by
  obtain ⟨ascii, noDash⟩ := Parameter.plain_letter short
  have byName : state.read (encode ("--" ++ name)) = .error halt := by
    rw [holds.read_name long, noValue]
    exact halts
  have byLetter : state.read (encode ("-" ++ String.singleton letter)) = .error halt := by
    rw [← List.append_nil (encode _), read_letter holds.attentive ascii noDash, readShort,
      Parameter.ofShort?_toUInt8 short]
    simp only [noValue, Bool.false_eq_true, if_false, halts]
    rfl
  simp only [List.forall_mem_cons, byName, byLetter, List.not_mem_nil, false_implies, implies_true,
    and_true]

theorem Holds.read_help :
    ∀ written ∈ ["--help", "-h"], state.read (encode written) = .error .help := by
  have halts : state.raise .help = .error .help := by
    rw [State.raise, holds.closes]
    rfl
  exact holds.read_halting rfl rfl rfl halts

theorem Holds.read_version :
    ∀ written ∈ ["--version", "-V"], state.read (encode written) = .error .version := by
  have halts : state.raise .version = .error .version := by
    rw [State.raise, holds.closes]
    rfl
  exact holds.read_halting rfl rfl rfl halts

/-- A value that cannot be kept is refused where it is attached, or by what closes it. -/
theorem Holds.read_refused {fault : Misuse} (long : parameter.longName? = some name)
    (takes : parameter.takesValue = true) (single : parameter.takesMore = false)
    {written : Written} (wellFormed : written.WellFormed)
    (refuses : given.keep parameter [encode written.text] = .error fault) :
    (written.spelled ("--" ++ name) ++ [encode "--help"]).foldlM State.read state =
      .error (.misuse fault) := by
  cases written with
  | attached text =>
      rw [Written.text] at refuses
      rw [Written.spelled, List.singleton_append, List.foldlM_cons,
        State.read_attached holds.attentive long takes, State.assign, holds.collect]
      simp only [bind, Except.bind, close, refuses]
  | separate text =>
      have help : Parameter.help.longName? = some "help" := rfl
      have closing : (State.mk given (some ⟨parameter, [encode text], false⟩) false).read
          (encode "--help") = .error (.misuse fault) := by
        rw [Written.text] at refuses
        rw [show "--help" = "--" ++ "help" from rfl, State.read_name rfl help]
        simp only [Parameter.takesValue, State.raise, close, refuses]
        rfl
      rw [Written.spelled, List.foldlM_append, holds.read_separate long takes single wellFormed]
      simp only [bind, Except.bind, List.foldlM_cons, closing]

/-- A second use of an option that can be given once. -/
theorem Holds.read_again {item : Item} (wellFormed : item.WellFormed)
    (single : item.single? = some parameter) (again : given.has parameter = true) :
    (item.spelled ++ [encode "--help"]).foldlM State.read state =
      .error (.misuse (.repeated parameter)) := by
  cases item with
  | fileName written =>
      cases single
      have long : Parameter.fileName.longName? = some "file-name" := rfl
      have refuses : given.keep .fileName [encode written.text] = .error (.repeated .fileName) := by
        rw [Given.keep, Given.only_again again]
        rfl
      exact holds.read_refused long rfl rfl wellFormed refuses
  | extension written =>
      cases single
      have long : Parameter.extension.longName? = some "extension" := rfl
      have refuses : given.keep .extension [encode written.text] =
          .error (.repeated .extension) := by
        rw [Given.keep, Given.only_again again]
        rfl
      exact holds.read_refused long rfl rfl wellFormed refuses
  | dryRun =>
      cases single
      have long : Parameter.dryRun.longName? = some "dry-run" := rfl
      have isGiven : given.dryRun = true := again
      have raises : state.raise .dryRun = .error (.misuse (.repeated .dryRun)) := by
        rw [State.raise, holds.closes]
        simp only [bind, Except.bind, isGiven, if_true]
      rw [Item.spelled, List.singleton_append, List.foldlM_cons,
        show "--dry-run" = "--" ++ "dry-run" from rfl, holds.read_name long, Parameter.takesValue,
        if_neg Bool.false_ne_true, raises]
      rfl
  | exclude _ | excludeAll _ _ _ | verbose | verboseLetters _ | target _ => cases single

end

end State

theorem IsWord.ne_escape {argument : Bytes} (isWord : IsWord argument) :
    argument ≠ [State.dash, State.dash] := by
  rintro rfl
  cases isWord rfl

theorem encode_ne_escape {front : String} (long : 2 < (encode front).length) (text : String) :
    encode (front ++ text) ≠ [State.dash, State.dash] := by
  intro same
  have length := congrArg List.length same
  rw [encode_append, List.length_append, List.length_cons, List.length_singleton] at length
  omega

theorem Written.noEscape {written : Written} (wellFormed : written.WellFormed) {option : String}
    (long : 2 < (encode option).length) :
    ∀ argument ∈ written.spelled option, argument ≠ [State.dash, State.dash] := by
  have alone := encode_ne_escape long
  cases written with
  | attached text =>
      intro argument member
      rw [List.mem_singleton.mp member, String.append_assoc]
      exact alone _
  | separate text =>
      have name : encode option ≠ [State.dash, State.dash] := by
        have bare := alone ""
        rw [String.append_empty] at bare
        exact bare
      simpa [spelled] using ⟨name, wellFormed.ne_escape⟩

/-- No argument of an item turns what follows it into words. -/
theorem Item.noEscape {item : Item} (wellFormed : item.WellFormed) :
    ∀ argument ∈ item.spelled, argument ≠ [State.dash, State.dash] := by
  cases item with
  | exclude name =>
      intro argument member
      rw [List.mem_singleton.mp member]
      exact encode_ne_escape (by decide) name
  | excludeAll short name others =>
      have option : encode (if short then "-e" else "--exclude-dirs") ≠
          [State.dash, State.dash] := by
        cases short <;> decide
      have words : ∀ argument ∈ (name :: others).map encode,
          argument ≠ [State.dash, State.dash] := by
        intro argument member
        obtain ⟨word, isName, rfl⟩ := List.mem_map.mp member
        exact (wellFormed word isName).ne_escape
      exact List.forall_mem_cons.mpr ⟨option, words⟩
  | fileName written | extension written => exact Written.noEscape wellFormed (by decide)
  | dryRun | verbose => decide
  | verboseLetters others =>
      intro argument member
      rw [List.mem_singleton.mp member]
      intro same
      cases same
  | target word =>
      intro argument member
      rw [List.mem_singleton.mp member]
      exact wellFormed.1.ne_escape

theorem Line.WellFormed.complete {items : List Item} (wellFormed : WellFormed ⟨items, none⟩) :
    Complete (spelled ⟨items, none⟩) := by
  obtain ⟨state, read, holds⟩ := wellFormed.read_items
  constructor
  case noEscape =>
    rw [spelled, List.append_nil, List.mem_flatMap]
    rintro ⟨item, member, escape⟩
    exact Item.noEscape (wellFormed.items item member) _ escape rfl
  case accepted =>
    refine ⟨(Given.ofItems items).arguments, ?_⟩
    rw [spelled, List.append_nil, parse, read]
    simp only [bind, Except.bind, holds.closes]
    rfl

theorem Item.usedIn {items : List Item} {item : Item} {parameter : Parameter}
    (member : item ∈ items) (single : item.single? = some parameter) :
    parameter.UsedIn (Line.spelled ⟨items, none⟩) := by
  have inside : ∀ argument ∈ item.spelled, argument ∈ Line.spelled ⟨items, none⟩ := by
    intro argument part
    rw [Line.spelled, List.append_nil]
    exact List.mem_flatMap.mpr ⟨item, member, part⟩
  cases item with
  | fileName written | extension written =>
      cases single
      refine ⟨_, rfl, ?_⟩
      cases written with
      | attached text =>
          refine ⟨_, inside _ List.mem_cons_self, .inr ?_⟩
          rw [encode_append]
          exact List.prefix_append _ _
      | separate text => exact ⟨_, inside _ List.mem_cons_self, .inl rfl⟩
  | dryRun =>
      cases single
      exact ⟨_, rfl, _, inside _ List.mem_cons_self, .inl rfl⟩
  | exclude _ | excludeAll _ _ _ | verbose | verboseLetters _ | target _ => cases single

/-- What halts the reader halts it whatever comes next. -/
theorem parse_halts {front middle : List Bytes} {state : State} {halt : Halt}
    (read : front.foldlM State.read .initial = .ok state)
    (halts : middle.foldlM State.read state = .error halt) (behind : List Bytes) :
    parse (front ++ (middle ++ behind)) = .error halt := by
  rw [parse, List.foldlM_append, read]
  simp only [bind, Except.bind, List.foldlM_append, halts]

/-- Behind complete arguments, the first request or fault settles the command line.

The first part says that items as they are written are complete, and which options are among
them. -/
theorem parse_decided :
    (∀ items, Line.WellFormed ⟨items, none⟩ →
      Complete (Line.spelled ⟨items, none⟩) ∧
      ∀ item ∈ items, ∀ parameter, item.single? = some parameter →
        parameter.UsedIn (Line.spelled ⟨items, none⟩)) ∧
    ∀ front, Complete front → ∀ behind,
      (∀ written ∈ ["--help", "-h"],
        parse (front ++ encode written :: behind) = .error .help) ∧
      (∀ written ∈ ["--version", "-V"],
        parse (front ++ encode written :: behind) = .error .version) ∧
      (∀ name value : String, name ≠ "" → '=' ∉ name.toList →
        (∀ parameter : Parameter, parameter.longName? ≠ some name) →
        ∀ written ∈ ["--" ++ name, "--" ++ name ++ "=" ++ value],
          parse (front ++ encode written :: behind) =
            .error (.misuse (.unknownArgument ("--" ++ name)))) ∧
      (∀ letter : Char, letter.isAlphanum = true →
        (∀ parameter : Parameter, parameter.shortName? ≠ some letter) →
        parse (front ++ encode ("-" ++ String.singleton letter) :: behind) =
          .error (.misuse (.unknownArgument ("-" ++ String.singleton letter)))) ∧
      (∀ item : Item, item.WellFormed → ∀ parameter, item.single? = some parameter →
        parameter.UsedIn front →
        parse (front ++ (item.spelled ++ encode "--help" :: behind)) =
          .error (.misuse (.repeated parameter))) := by
  refine ⟨fun items wellFormed => ⟨wellFormed.complete, fun item member parameter =>
    Item.usedIn member⟩, fun front complete behind => ?_⟩
  obtain ⟨state, given, read, holds, has⟩ := complete.reader
  have settles {argument : Bytes} {halt : Halt} (halts : state.read argument = .error halt) :
      parse (front ++ argument :: behind) = .error halt := by
    have halts : [argument].foldlM State.read state = .error halt := by
      rw [List.foldlM_cons, halts]
      rfl
    exact parse_halts read halts behind
  refine ⟨?help, ?version, ?unknownName, ?unknownLetter, ?repeated⟩
  case help => exact fun written asks => settles (holds.read_help written asks)
  case version => exact fun written asks => settles (holds.read_version written asks)
  case unknownName =>
    intro name value nonempty plain unknown written member
    have reads (bytes : Bytes) (valued : ∀ first ∈ bytes.head?, first = State.equals) :=
      State.read_unknownName holds.attentive nonempty plain unknown valued
    apply settles
    rcases List.mem_pair.mp member with rfl | rfl
    · have bare := reads [] (by simp)
      rw [List.append_nil] at bare
      exact bare
    · have sign : encode "=" = [State.equals] := by decide
      rw [encode_append, encode_append, List.append_assoc, sign]
      exact reads _ (by simp)
  case unknownLetter =>
    intro letter alphanumeric unknown
    have ascii := toNat_lt_of_isAlphanum alphanumeric
    have noDash : letter ≠ '-' := by
      rintro rfl
      cases alphanumeric
    apply settles
    rw [← List.append_nil (encode _), State.read_letter holds.attentive ascii noDash,
      State.readShort_unknown ascii unknown]
  case repeated =>
    intro item wellFormed parameter single used
    have halts := holds.read_again wellFormed single (has parameter used)
    have settled := parse_halts read halts behind
    rw [List.append_assoc, List.singleton_append] at settled
    exact settled

/-- Letters in one argument, a value of its own and a group that still takes words are complete. -/
theorem parse_decided_clustered :
    let front := ["-vedist", "--file-name", "a.ts", "-e", "lib"].map encode
    parse (front ++ ["-h", "--nonsense"].map encode) = .error .help ∧
      parse (front ++ ["--version", "--help"].map encode) = .error .version ∧
      parse (front ++ ["--names=--help", "--help"].map encode) =
        .error (.misuse (.unknownArgument "--names")) ∧
      parse (front ++ ["-E", "--version"].map encode) =
        .error (.misuse (.unknownArgument "-E")) ∧
      parse (front ++ ["--file-name", "b.ts", "--help"].map encode) =
        .error (.misuse (.repeated .fileName)) := by
  intro front
  have complete : Complete front :=
    ⟨by decide, ⟨none, ["dist", "lib"], "a.ts", ".js", false, 1⟩, by decide⟩
  have decided := parse_decided.2 front complete
  have used : Parameter.UsedIn .fileName front :=
    ⟨"file-name", rfl, encode "--file-name", by decide, .inl rfl⟩
  have noName : ∀ parameter : Parameter, parameter.longName? ≠ some "names" := by
    intro parameter
    cases parameter <;> decide
  have noLetter : ∀ parameter : Parameter, parameter.shortName? ≠ some 'E' := by
    intro parameter
    cases parameter <;> decide
  obtain ⟨help, -⟩ := decided [encode "--nonsense"]
  obtain ⟨-, version, -⟩ := decided [encode "--help"]
  obtain ⟨-, -, unknownName, -⟩ := decided [encode "--help"]
  obtain ⟨-, -, -, unknownLetter, -⟩ := decided [encode "--version"]
  obtain ⟨-, -, -, -, repeated⟩ := decided []
  exact ⟨help "-h" (by decide), version "--version" (by decide),
    unknownName "names" "--help" (by decide) (by decide) noName "--names=--help" (by decide),
    unknownLetter 'E' (by decide) noLetter,
    repeated (.fileName (.separate "b.ts")) (by decide) .fileName rfl used⟩

end ImportSuffix.CommandLine
