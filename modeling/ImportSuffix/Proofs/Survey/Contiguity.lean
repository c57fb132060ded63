import ImportSuffix.Proofs.Survey.Exclusion
import ImportSuffix.Proofs.Survey.Skipped

/-!
Candidates of one directory stand together.

A survey is done with all that is below a directory before it goes on beside it.  So the
candidates below any directory are one block of all candidates, in whatever order directories
list their entries.
-/

namespace ImportSuffix

open Text

/-- The paths of one sort are one block of a list. -/
def Contiguous (inside : Path → Prop) (paths : List Path) : Prop :=
  ∃ before block after, paths = before ++ block ++ after ∧ (∀ path ∈ block, inside path) ∧
    ∀ path ∈ before ++ after, ¬inside path

namespace Contiguous

variable {inside : Path → Prop} {paths first later : List Path}

theorem of_forall (all : ∀ path ∈ paths, inside path) : Contiguous inside paths :=
  ⟨[], paths, [], by simp, all, by simp⟩

theorem append_left (none : ∀ path ∈ first, ¬inside path) (contiguous : Contiguous inside later) :
    Contiguous inside (first ++ later) := by
  obtain ⟨before, block, after, rfl, all, others⟩ := contiguous
  refine ⟨first ++ before, block, after, by simp, all, ?_⟩
  intro path membership
  rw [List.append_assoc, List.mem_append] at membership
  exact membership.elim (none path) (others path)

theorem append_right (contiguous : Contiguous inside first) (none : ∀ path ∈ later, ¬inside path) :
    Contiguous inside (first ++ later) := by
  obtain ⟨before, block, after, rfl, all, others⟩ := contiguous
  refine ⟨before, block, after ++ later, by simp, all, ?_⟩
  intro path membership
  rw [← List.append_assoc, List.mem_append] at membership
  exact membership.elim (others path) (none path)

/-- Nothing of another sort stands between two paths of the sort. -/
theorem inside_of_between (contiguous : Contiguous inside paths) {start middle stop : Nat}
    {one path other : Path} (lower : start ≤ middle) (upper : middle ≤ stop)
    (atStart : paths[start]? = some one) (atMiddle : paths[middle]? = some path)
    (atStop : paths[stop]? = some other) (insideOne : inside one) (insideOther : inside other) :
    inside path := by
  obtain ⟨before, block, after, rfl, all, others⟩ := contiguous
  have inBlock {place : Nat} {found : Path}
      (at? : (before ++ block ++ after)[place]? = some found) :
      inside found ↔ before.length ≤ place ∧ place < before.length + block.length := by
    rw [List.append_assoc, List.getElem?_append] at at?
    split at at?
    next early =>
      have among := List.mem_of_getElem? at?
      exact iff_of_false (others found (by simp [among])) (by omega)
    next notEarly =>
      rw [List.getElem?_append] at at?
      split at at?
      next within => exact iff_of_true (all found (List.mem_of_getElem? at?)) (by omega)
      next late =>
        have among := List.mem_of_getElem? at?
        exact iff_of_false (others found (by simp [among])) (by omega)
  have notEarlier := ((inBlock atStart).mp insideOne).1
  have notLater := ((inBlock atStop).mp insideOther).2
  exact (inBlock atMiddle).mpr ⟨by omega, by omega⟩

end Contiguous

namespace Listing

section

variable {excluded : ExcludedNames} {targetName : Bytes} {path found : Path}
  {names others : Location} {entry : Entry} {listing : Listing}

/-- What a survey reaches below a directory is reached over all the names of that directory. -/
theorem isBelow_iff (wellFormed : Listing.WellFormed listing) (nonempty : path.bytes ≠ [])
    (valid : ∀ name ∈ names, ValidName name)
    (reached : Listing.Reaches excluded listing others entry) :
    (others.foldl Path.join path).IsBelow (names.foldl Path.join path) ↔
      ∃ more, more ≠ [] ∧ others = names ++ more := by
  have validOthers := reached.validName wellFormed
  constructor
  · exact fun below => below.exists_append nonempty validOthers valid
  · intro ⟨more, present, whole⟩
    rw [whole, List.foldl_append]
    apply Path.isBelow_foldl_join (Path.bytes_foldl_join_ne_nil nonempty names) present
    intro name membership
    exact validOthers name (by simp [whole, membership])

/-- Where a directory is not listed, there are no candidates below it. -/
theorem not_isBelow_of_unlisted {first : Bytes} {rest : Location}
    (wellFormed : Listing.WellFormed listing) (nonempty : path.bytes ≠ [])
    (valid : ∀ name ∈ first :: rest, ValidName name) (absent : first ∉ listing.map Prod.fst) :
    ∀ found ∈ candidates excluded targetName path listing,
      ¬found.IsBelow ((first :: rest).foldl Path.join path) := by
  intro found among below
  obtain ⟨others, content, reached, _, _, rfl⟩ := mem_candidates_iff_reaches.mp among
  obtain ⟨more, _, whole⟩ := (isBelow_iff wellFormed nonempty valid reached).mp below
  obtain ⟨head, tail, same, listed⟩ := reached.exists_head
  rw [whole, List.cons_append, List.cons.injEq] at same
  exact absent (same.1 ▸ listed)

/-- The walk below a listing, by induction on what it lists. -/
theorem contiguous_candidates (wellFormed : Listing.WellFormed listing)
    (nonempty : path.bytes ≠ []) (valid : ∀ name ∈ names, ValidName name) (present : names ≠ []) :
    Contiguous (·.IsBelow (names.foldl Path.join path))
      (candidates excluded targetName path listing) := by
  obtain ⟨first, tail, rfl⟩ := List.exists_cons_of_ne_nil present
  induction listing using Listing.induction generalizing path first tail with
  | nil => exact .of_forall (by simp [candidates, findings])
  | leaf name entry rest leaf inductionHypothesis =>
      obtain ⟨validName, absent, below, wellFormedRest⟩ := wellFormed
      have alone : Listing.WellFormed [(name, entry)] := ⟨validName, by simp, below, trivial⟩
      rw [candidates_cons]
      refine .append_left ?_
        (inductionHypothesis wellFormedRest nonempty first tail valid present)
      -- A file lies below no directory that is listed beside it, not even of its own name.
      intro found among isBelow
      obtain ⟨others, content, reached, _, _, rfl⟩ := mem_candidates_iff_reaches.mp among
      obtain ⟨more, presentMore, whole⟩ := (isBelow_iff alone nonempty valid reached).mp isBelow
      rcases reaches_singleton_iff.mp reached with ⟨rfl, _⟩ | ⟨inner, _, rfl, _⟩
      · have lengths := congrArg List.length whole
        have := List.length_pos_of_ne_nil presentMore
        simp only [List.length_append, List.length_cons, List.length_nil] at lengths
        omega
      · cases leaf
  | directory name inner rest inductionInner inductionRest =>
      obtain ⟨validName, absent, below, wellFormedRest⟩ := wellFormed
      have alone : Listing.WellFormed [(name, .directory inner)] :=
        ⟨validName, by simp, below, trivial⟩
      rw [candidates_cons]
      by_cases same : first = name
      · subst same
        refine .append_right ?_ (not_isBelow_of_unlisted wellFormedRest nonempty valid absent)
        have longer := Path.bytes_join_ne_nil nonempty first
        rw [candidates_directory]
        split
        next =>
          cases tail with
          | nil =>
              apply Contiguous.of_forall
              intro found among
              obtain ⟨others, _, reached, _, _, rfl⟩ := mem_candidates_iff_reaches.mp among
              exact Path.isBelow_foldl_join longer reached.ne_nil (reached.validName below)
          | cons next others =>
              have validTail := (List.forall_mem_cons.mp valid).2
              exact inductionInner below longer next others validTail (by simp)
        next => exact .of_forall (by simp)
      · apply Contiguous.append_left
          (not_isBelow_of_unlisted alone nonempty valid (by simpa using same))
        exact inductionRest wellFormedRest nonempty first tail valid present

end

end Listing

namespace Survey

variable {settings : Settings} {disk : Disk} {top names : Location} {inner : Listing}

/-- Where there is something below a location, it is that of a directory. -/
theorem exists_listing_of_entry? {entry : Entry} (present : names ≠ [])
    (there : disk.entry? (top ++ names) = some entry) :
    ∃ listing, disk.entry? top = some (.directory listing) := by
  obtain ⟨name, rest, rfl⟩ := List.exists_cons_of_ne_nil present
  rw [Disk.entry?, Entry.at?_append] at there
  obtain ⟨above, found, below⟩ := Option.bind_eq_some_iff.mp there
  obtain ⟨listing, _, rfl, _⟩ := Entry.at?_cons_eq_some below
  exact ⟨listing, found⟩

/-- The candidates below a directory are one block, whatever the order of the listings on the
disk.  A path lies below that of the directory just when its file does, and nothing from
elsewhere stands between two of them. -/
theorem candidates_contiguous (wellFormed : disk.WellFormed)
    (led : disk.locate .target settings.root = .ok top) (present : names ≠ [])
    (there : disk.entry? (top ++ names) = some (.directory inner)) :
    Contiguous (·.IsBelow (settings.root.below names)) (take settings disk).candidates ∧
    (∀ candidate ∈ (take settings disk).candidates,
      candidate.IsBelow (settings.root.below names) ↔
        ∃ more content, more ≠ [] ∧ candidate = settings.root.below (names ++ more) ∧
          disk.entry? (top ++ (names ++ more)) = some (.file content)) ∧
    ∀ (start middle stop : Nat) (one candidate other : Path), start ≤ middle → middle ≤ stop →
      (take settings disk).candidates[start]? = some one →
      (take settings disk).candidates[middle]? = some candidate →
      (take settings disk).candidates[stop]? = some other →
      one.IsBelow (settings.root.below names) → other.IsBelow (settings.root.below names) →
      candidate.IsBelow (settings.root.below names) := by
  obtain ⟨listing, found⟩ := exists_listing_of_entry? present there
  have inside : Listing.WellFormed listing := wellFormed.entry_wellFormed found
  have nonempty := (Disk.locate_eq_ok_iff.mp led).1.nonempty
  have reachedDirectory := reaches_of_entry? wellFormed found present there
  have valid := reachedDirectory.validName inside
  have spelled := foldl_join_of_reaches wellFormed led found reachedDirectory
  have candidates : (take settings disk).candidates =
      Listing.candidates settings.excluded (encode settings.targetName) settings.root listing := by
    rw [candidates_take, Disk.inspect_eq_ok_iff.mpr ⟨top, led, found⟩]
  have contiguous : Contiguous (·.IsBelow (settings.root.below names))
      (take settings disk).candidates := by
    rw [candidates, ← spelled]
    exact Listing.contiguous_candidates inside nonempty valid present
  refine ⟨contiguous, ?_, ?_⟩
  · intro candidate among
    rw [candidates] at among
    obtain ⟨others, content, reached, _, _, rfl⟩ := Listing.mem_candidates_iff_reaches.mp among
    have file := ((reaches_iff wellFormed found).mp reached).2.1
    have spelledFile := foldl_join_of_reaches wellFormed led found reached
    rw [← spelled, Listing.isBelow_iff inside nonempty valid reached]
    constructor
    · intro ⟨more, presentMore, whole⟩
      rw [whole] at spelledFile file
      exact ⟨more, content, presentMore, whole ▸ spelledFile, file⟩
    · intro ⟨more, held, presentMore, same, fileToo⟩
      have reachedToo := reaches_of_entry? wellFormed found (by simp [present]) fileToo
      rw [spelledFile] at same
      exact ⟨more, presentMore, eq_of_below_eq wellFormed led found reached reachedToo same⟩
  · exact fun _ _ _ _ _ _ => contiguous.inside_of_between

/-- The directory in the middle has a candidate of its own, and one in another directory. -/
theorem candidates_contiguous_crossed :
    let settings := Settings.ofRoot (.ofText "packages")
    let found := (take settings crossedDisk).candidates
    crossedDisk.WellFormed ∧ crossedDisk.locate .target settings.root = .ok [encode "packages"] ∧
      found = ["build/index.ts", "build/dist/index.ts", "dist/build/index.ts", "dist/index.ts",
        "index.ts"].map (fun name => .ofText ("packages/" ++ name)) ∧
      (∃ inner, crossedDisk.entry? ([encode "packages"] ++ [encode "dist"]) =
        some (.directory inner)) ∧
      Contiguous (·.IsBelow (settings.root.below [encode "dist"])) found := by
  intro settings found
  have wellFormed : crossedDisk.WellFormed := by decide +kernel
  have led : crossedDisk.locate .target settings.root = .ok [encode "packages"] := by
    decide +kernel
  obtain ⟨inner, there⟩ : ∃ inner, crossedDisk.entry? ([encode "packages"] ++ [encode "dist"]) =
      some (.directory inner) := ⟨_, rfl⟩
  exact ⟨wellFormed, led, by decide +kernel, ⟨inner, there⟩,
    (candidates_contiguous wellFormed led (by simp) there).1⟩

end Survey

end ImportSuffix
