import ImportSuffix.Disk.Walk
import Mathlib.Data.List.Basic

/-!
Names, and paths that are made of them.

The name of an entry is one step of any path that it is joined to, so different
names below the same directory make different paths.
-/

namespace ImportSuffix

open Text

/-- What can be the name of an entry. -/
structure ValidName (name : Bytes) : Prop where
  nonempty : name ≠ []
  notHere : name ≠ [0x2E]
  notUp : name ≠ [0x2E, 0x2E]
  noSeparator : Path.separator ∉ name
  noZero : (0 : UInt8) ∉ name
  short : name.length ≤ Disk.nameLimit

theorem validName_iff {name : Bytes} :
    (name ≠ [] ∧ name ≠ [0x2E] ∧ name ≠ [0x2E, 0x2E] ∧ Path.separator ∉ name ∧
      (0 : UInt8) ∉ name ∧ name.length ≤ Disk.nameLimit) ↔ ValidName name := by
  constructor
  · rintro ⟨nonempty, notHere, notUp, noSeparator, noZero, short⟩
    exact ⟨nonempty, notHere, notUp, noSeparator, noZero, short⟩
  · intro valid
    exact ⟨valid.nonempty, valid.notHere, valid.notUp, valid.noSeparator, valid.noZero, valid.short⟩

instance (name : Bytes) : Decidable (ValidName name) := decidable_of_iff _ validName_iff

theorem ValidName.ofSegment? {name : Bytes} (valid : ValidName name) :
    Part.ofSegment? name = some (.down name) := by
  unfold Part.ofSegment?
  split
  · exact absurd rfl valid.nonempty
  · exact absurd rfl valid.notHere
  · exact absurd rfl valid.notUp
  · rfl

namespace Path

theorem segments_ne_nil (bytes : Bytes) : segments bytes ≠ [] := by
  cases bytes with
  | nil => simp [segments]
  | cons byte rest =>
      rw [segments]
      split
      · simp
      · split <;> simp

theorem segments_append (front back : Bytes) :
    segments (front ++ separator :: back) = segments front ++ segments back := by
  induction front with
  | nil => simp [segments]
  | cons byte front inductionHypothesis =>
      rw [List.cons_append, segments, segments, inductionHypothesis]
      split
      · rfl
      · cases found : segments front with
        | nil => exact absurd found (segments_ne_nil front)
        | cons segment others => rfl

theorem segments_of_not_mem {name : Bytes} (noSeparator : separator ∉ name) :
    segments name = [name] := by
  induction name with
  | nil => rfl
  | cons byte rest inductionHypothesis =>
      have differs : byte ≠ separator := fun same => noSeparator (by simp [same])
      rw [segments, if_neg differs, inductionHypothesis fun inside => noSeparator (by simp [inside])]

/-- The steps of a path, without the slash at its end. -/
def steps (path : Path) : List Part := (segments path.bytes).filterMap Part.ofSegment?

theorem parts_eq (path : Path) :
    path.parts = path.steps ++ if path.endsInSeparator then [.trailing] else [] := rfl

theorem bytes_join (path : Path) (name : Bytes) :
    ∃ between, (path.join name).bytes = path.bytes ++ between ++ name := by
  rw [join]
  split
  · exact ⟨[], by simp⟩
  · exact ⟨[separator], by simp⟩

theorem bytes_join_ne_nil {path : Path} (nonempty : path.bytes ≠ []) (name : Bytes) :
    (path.join name).bytes ≠ [] := by
  obtain ⟨between, bytes⟩ := bytes_join path name
  simp [bytes, nonempty]

theorem bytes_foldl_join_ne_nil {path : Path} (nonempty : path.bytes ≠ []) (names : Location) :
    (names.foldl join path).bytes ≠ [] := by
  induction names generalizing path with
  | nil => exact nonempty
  | cons name rest inductionHypothesis =>
      exact inductionHypothesis (bytes_join_ne_nil nonempty name)

theorem endsInSeparator_join (path : Path) {name : Bytes} (valid : ValidName name) :
    (path.join name).endsInSeparator = false := by
  obtain ⟨between, bytes⟩ := bytes_join path name
  rw [endsInSeparator, bytes, List.getLast?_append_of_ne_nil _ valid.nonempty, beq_eq_false_iff_ne]
  intro last
  exact valid.noSeparator (List.mem_of_getLast? last)

theorem steps_join (path : Path) {name : Bytes} (valid : ValidName name) :
    (path.join name).steps = path.steps ++ [.down name] := by
  have alone : (segments name).filterMap Part.ofSegment? = [.down name] := by
    rw [segments_of_not_mem valid.noSeparator]
    simp [valid.ofSegment?]
  rw [join]
  split
  next adjacent =>
    rw [Bool.or_eq_true] at adjacent
    rcases adjacent with empty | ends
    · have nothing := List.isEmpty_iff.mp empty
      simp [steps, nothing, segments, alone, Part.ofSegment?]
    · rw [endsInSeparator, beq_iff_eq] at ends
      obtain ⟨front, whole⟩ := List.getLast?_eq_some_iff.mp ends
      simp only [steps, whole, List.append_assoc, List.singleton_append, segments_append,
        List.filterMap_append, alone]
      simp [segments, Part.ofSegment?]
  next =>
    rw [steps, segments_append, List.filterMap_append, alone]
    rfl

theorem isAbsolute_join {path : Path} (nonempty : path.bytes ≠ []) (name : Bytes) :
    (path.join name).isAbsolute = path.isAbsolute := by
  obtain ⟨between, bytes⟩ := bytes_join path name
  rw [isAbsolute, isAbsolute, bytes, List.append_assoc, List.head?_append_of_ne_nil _ nonempty]

section

variable {path : Path} {names : Location} (valid : ∀ name ∈ names, ValidName name)
include valid

theorem steps_foldl_join : (names.foldl join path).steps = path.steps ++ names.map .down := by
  induction names generalizing path with
  | nil => simp
  | cons name rest inductionHypothesis =>
      have validRest : ∀ other ∈ rest, ValidName other := by
        intro other membership
        exact valid other (List.mem_cons_of_mem name membership)
      rw [List.foldl_cons, inductionHypothesis validRest,
        steps_join path (valid name List.mem_cons_self), List.append_assoc]
      rfl

theorem parts_foldl_join (nonempty : names ≠ []) :
    (names.foldl join path).parts = path.steps ++ names.map .down := by
  have ends : (names.foldl join path).endsInSeparator = false := by
    obtain ⟨front, last, rfl⟩ := names.eq_nil_or_concat.resolve_left nonempty
    rw [List.concat_eq_append, List.foldl_append]
    exact endsInSeparator_join _ (valid last (by simp))
  rw [parts_eq, steps_foldl_join valid, ends]
  simp

/-- Different names lead along different paths. -/
theorem foldl_join_injective {others : Location} (validOthers : ∀ name ∈ others, ValidName name)
    (same : names.foldl join path = others.foldl join path) : names = others := by
  have steps : path.steps ++ names.map .down = path.steps ++ others.map .down := by
    rw [← steps_foldl_join valid, ← steps_foldl_join validOthers, same]
  have downs : names.map Part.down = others.map .down := List.append_cancel_left steps
  apply (List.map_inj_right _).mp downs
  intro first second downSame
  exact Part.down.inj downSame

end

theorem isAbsolute_foldl_join {path : Path} (nonempty : path.bytes ≠ []) (names : Location) :
    (names.foldl join path).isAbsolute = path.isAbsolute := by
  induction names generalizing path with
  | nil => rfl
  | cons name rest inductionHypothesis =>
      rw [List.foldl_cons, inductionHypothesis (bytes_join_ne_nil nonempty name),
        isAbsolute_join nonempty]

/-- The path of what some names lead down to, as it is written.  One slash stands before
every name, except that none is added to a path that ends in one. -/
def below (path : Path) (names : Location) : Path :=
  ⟨path.bytes ++ (if path.endsInSeparator then [] else [separator]) ++
    [separator].intercalate names⟩

theorem join_eq_below {path : Path} (nonempty : path.bytes ≠ []) (name : Bytes) :
    path.join name = path.below [name] := by
  unfold join below
  cases path.endsInSeparator <;> simp [nonempty]

/-- Joining names one after the other writes them with slashes between them. -/
theorem foldl_join_eq_below {path : Path} {names : Location} (nonempty : path.bytes ≠ [])
    (present : names ≠ []) (valid : ∀ name ∈ names, ValidName name) :
    names.foldl join path = path.below names := by
  induction names generalizing path with
  | nil => exact absurd rfl present
  | cons name rest inductionHypothesis =>
      cases rest with
      | nil => exact join_eq_below nonempty name
      | cons next others =>
          have longer := bytes_join_ne_nil nonempty name
          have validRest : ∀ other ∈ next :: others, ValidName other := by
            intro other membership
            exact valid other (List.mem_cons_of_mem name membership)
          rw [List.foldl_cons, inductionHypothesis longer (by simp) validRest, below,
            endsInSeparator_join path (valid name List.mem_cons_self), join_eq_below nonempty]
          simp [below, List.intercalate_cons_cons]

end Path

end ImportSuffix
