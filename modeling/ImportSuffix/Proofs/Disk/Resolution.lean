import ImportSuffix.Proofs.Disk.Observation

/-!
Where paths lead and what is read there, in terms of what there is at each location.

Following a path only depends on what there is on the way, neither on the contents of
files nor on the order in which directories list their entries.  If it fails, the operating
system says so, or could not be asked.
-/

namespace ImportSuffix

open Text

section

variable {Result : Type}

theorem Kind.match_directory (kind? : Option Kind) (found other : Result) :
    (match kind? with
      | some (.directory _) => found
      | _ => other) =
    if kind?.map Kind.unlisted = some (.directory []) then found else other := by
  rcases kind? with _ | _ | _ | _ | _ <;> rfl

theorem Kind.match_link (kind? : Option Kind) (missing other : Result)
    (linked : Path → Result) :
    (match kind? with
      | none => missing
      | some (.link target) => linked target
      | some _ => other) =
    match kind?.map Kind.unlisted with
      | none => missing
      | some (.link target) => linked target
      | some _ => other := by
  rcases kind? with _ | _ | _ | _ | _ <;> rfl

end

/-- The causes for which a path cannot be followed. -/
inductive Cause.RefusesPath : Cause → Prop where
  | zero : RefusesPath zeroInPath
  | system (error : SystemError) : RefusesPath (system error)

namespace Disk

theorem entry?_append_singleton {disk : Disk} {here : Location} {listing : Listing}
    (directory : disk.entry? here = some (.directory listing)) (name : Bytes) :
    disk.entry? (here ++ [name]) = listing.lookup name := by
  unfold entry? at *
  rw [Entry.at?_append, directory, Option.bind_some, Entry.at?]
  cases listing.lookup name <;> simp

theorem kind?_append_singleton {disk : Disk} {here : Location} {listing : Listing}
    (directory : disk.entry? here = some (.directory listing)) (name : Bytes) :
    disk.kind? (here ++ [name]) = (listing.lookup name).map Entry.kind := by
  unfold kind?
  rw [entry?_append_singleton directory]

/-- One step along a path, in terms of what there is. -/
theorem advance_cons (disk : Disk) (ending : Ending)
    (throughLink : Location → Path → List Part → Except Cause Location) (here : Location)
    (part : Part) (rest : List Part) :
    disk.advance ending throughLink here (part :: rest) =
      match disk.kind? here with
      | some (.directory _) =>
          match part with
          | .here | .trailing => disk.advance ending throughLink here rest
          | .up => disk.advance ending throughLink here.dropLast rest
          | .down name =>
              if ending = .place ∧ rest = [.trailing] then .error (.system .isADirectory)
              else if nameLimit < name.length then .error (.system .nameTooLong)
              else
                match disk.kind? (here ++ [name]) with
                | none =>
                    if ending = .place ∧ rest = [] then .ok (here ++ [name])
                    else .error (.system .noEntry)
                | some (.link target) =>
                    if ending = .entry ∧ rest = [] then .ok (here ++ [name])
                    else throughLink here target rest
                | some _ => disk.advance ending throughLink (here ++ [name]) rest
      | _ => .error (.system .notADirectory) := by
  rw [advance]
  cases found : disk.entry? here with
  | none => simp [kind?, found]
  | some entry =>
      cases entry with
      | directory listing =>
          simp only [kind?_append_singleton found]
          simp only [kind?, found, Option.map_some, Entry.kind]
          cases part with
          | down name =>
              dsimp only
              cases listing.lookup name with
              | none => rfl
              | some entry => cases entry <;> rfl
          | _ => rfl
      | _ => simp [kind?, found, Entry.kind]

theorem advance_congr {first second : Disk} (same : first.SameWays second) (ending : Ending)
    {firstThrough secondThrough : Location → Path → List Part → Except Cause Location}
    (sameThrough : ∀ here target rest,
      firstThrough here target rest = secondThrough here target rest)
    (here : Location) (parts : List Part) :
    first.advance ending firstThrough here parts =
      second.advance ending secondThrough here parts := by
  induction parts generalizing here with
  | nil => rfl
  | cons part rest inductionHypothesis =>
      rw [advance_cons, advance_cons, Kind.match_directory, Kind.match_directory, same.kinds]
      cases part with
      | down name =>
          dsimp only
          rw [Kind.match_link, Kind.match_link (second.kind? _), same.kinds]
          simp only [sameThrough, inductionHypothesis]
      | _ => simp only [inductionHypothesis]

theorem walk_congr {first second : Disk} (same : first.SameWays second) (ending : Ending)
    (links : Nat) (here : Location) (parts : List Part) :
    first.walk ending links here parts = second.walk ending links here parts := by
  induction links generalizing here parts with
  | zero => exact advance_congr same ending (fun _ _ _ => rfl) here parts
  | succ links inductionHypothesis =>
      apply advance_congr same ending
      intro there target rest
      exact inductionHypothesis (start target there) (target.parts ++ rest)

/-- Where a path leads depends neither on the contents of files nor on the order of
listings. -/
theorem SameWays.locate {first second : Disk} (same : first.SameWays second) (ending : Ending)
    (path : Path) : first.locate ending path = second.locate ending path := by
  simp only [Disk.locate, walk_congr same, same.workingDirectory]

theorem SameKinds.locate {first second : Disk} (same : first.SameKinds second) (ending : Ending)
    (path : Path) : first.locate ending path = second.locate ending path :=
  same.ways.locate ending path

theorem refusesPath_of_advance {disk : Disk} {ending : Ending}
    {throughLink : Location → Path → List Part → Except Cause Location} {cause : Cause}
    (onward : ∀ here target rest, throughLink here target rest = .error cause → cause.RefusesPath)
    {here : Location} {parts : List Part}
    (failed : disk.advance ending throughLink here parts = .error cause) : cause.RefusesPath := by
  induction parts generalizing here with
  | nil => cases failed
  | cons part rest inductionHypothesis =>
      rw [advance_cons] at failed
      split at failed
      next =>
        cases part with
        | here | trailing | up => exact inductionHypothesis failed
        | down name =>
            dsimp only at failed
            split at failed
            · cases failed
              exact .system _
            split at failed
            · cases failed
              exact .system _
            split at failed
            · split at failed <;> cases failed
              exact .system _
            · split at failed
              · cases failed
              · exact onward _ _ _ failed
            · exact inductionHypothesis failed
      next =>
        cases failed
        exact .system _

theorem refusesPath_of_walk {disk : Disk} {ending : Ending} {links : Nat} {here : Location}
    {parts : List Part} {cause : Cause} (failed : disk.walk ending links here parts = .error cause) :
    cause.RefusesPath := by
  induction links generalizing here parts with
  | zero =>
      refine refusesPath_of_advance ?_ failed
      intro _ _ _ refused
      cases refused
      exact .system _
  | succ links inductionHypothesis =>
      exact refusesPath_of_advance (fun _ _ _ => inductionHypothesis) failed

theorem refusesPath_of_locate {disk : Disk} {ending : Ending} {path : Path} {cause : Cause}
    (failed : disk.locate ending path = .error cause) : cause.RefusesPath := by
  unfold locate at failed
  split at failed
  · cases failed
    exact .zero
  split at failed
  · cases failed
    exact .system _
  split at failed
  · cases failed
    exact .system _
  · exact refusesPath_of_walk failed

/-- Two paths that do not lead to the same place. -/
def Apart (disk : Disk) (first second : Path) : Prop :=
  ∀ location, disk.locate .target first = .ok location → disk.locate .target second ≠ .ok location

theorem SameKinds.apart {first second : Disk} (same : first.SameKinds second) {one other : Path}
    (apart : second.Apart one other) : first.Apart one other := by
  intro location led
  rw [same.locate] at *
  exact apart location led

theorem read_eq (disk : Disk) (path : Path) :
    disk.read path =
      match disk.locate .target path with
      | .error cause => .error cause
      | .ok location =>
          match disk.content? location, disk.kind? location with
          | some content, _ =>
              match decode? content with
              | some text => .ok text
              | none => .error .invalidText
          | none, some (.directory _) => .error (.system .isADirectory)
          | none, some _ => .error (.system .tryAgain)
          | none, none => .error (.system .noEntry) := by
  unfold read inspect content? kind?
  cases disk.locate .target path with
  | error cause => rfl
  | ok location =>
      simp only [bind, Except.bind]
      cases disk.entry? location with
      | none => rfl
      | some entry =>
          cases entry with
          | file content =>
              simp only [pure, Except.pure, Option.bind_some, Entry.content?]
              cases decode? content <;> rfl
          | _ => rfl

theorem read_congr {first second : Disk} (same : first.SameWays second) {path : Path}
    (contents : ∀ location, second.locate .target path = .ok location →
      first.content? location = second.content? location) :
    first.read path = second.read path := by
  rw [read_eq, read_eq, same.locate]
  cases located : second.locate .target path with
  | error cause => rfl
  | ok location =>
      have sameKind := same.kinds location
      simp only [contents location located]
      generalize first.kind? location = firstKind at *
      generalize second.kind? location = secondKind at *
      cases second.content? location with
      | some content => rfl
      | none =>
          rcases firstKind with _ | _ | _ | _ | _ <;>
            rcases secondKind with _ | _ | _ | _ | _ <;> first | rfl | cases sameKind

theorem read_eq_ok_iff {disk : Disk} {path : Path} {text : String} :
    disk.read path = .ok text ↔
      ∃ location, disk.locate .target path = .ok location ∧
        disk.content? location = some (encode text) := by
  rw [read_eq]
  cases disk.locate .target path with
  | error cause => simp
  | ok location =>
      simp only [Except.ok.injEq, exists_eq_left']
      cases disk.content? location with
      | none => cases disk.kind? location with
        | none => simp
        | some kind => cases kind <;> simp
      | some content =>
          simp only [Option.some.injEq, ← decode?_eq_some_iff]
          cases decode? content <;> simp

end Disk

end ImportSuffix
