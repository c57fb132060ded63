import ImportSuffix.Proofs.Survey.Coverage

/-!
Candidates and skipped directories of one survey.

A directory that is skipped below the root has a path too long to be listed, so no candidate
lies below it.  A root that is skipped has no candidates, with one exception: a link to a
directory is skipped as no directory, and walked all the same.
-/

namespace ImportSuffix

open Text

namespace Path

/-- The path is that of another one with more names behind it. -/
def IsBelow (path directory : Path) : Prop :=
  ∃ names, names ≠ [] ∧ (∀ name ∈ names, ValidName name) ∧ path = directory.below names

variable {root path directory : Path} {names front : Location}

theorem isBelow_foldl_join (nonempty : root.bytes ≠ []) (present : names ≠ [])
    (valid : ∀ name ∈ names, ValidName name) : (names.foldl join root).IsBelow root :=
  ⟨names, present, valid, foldl_join_eq_below nonempty present valid⟩

theorem IsBelow.exists_foldl_join (below : path.IsBelow root) (nonempty : root.bytes ≠ []) :
    ∃ names, names ≠ [] ∧ (∀ name ∈ names, ValidName name) ∧ path = names.foldl join root := by
  obtain ⟨names, present, valid, rfl⟩ := below
  exact ⟨names, present, valid, (foldl_join_eq_below nonempty present valid).symm⟩

/-- What lies below a directory on the way is reached over that directory. -/
theorem IsBelow.exists_append (below : (names.foldl join root).IsBelow (front.foldl join root))
    (nonempty : root.bytes ≠ []) (valid : ∀ name ∈ names, ValidName name)
    (validFront : ∀ name ∈ front, ValidName name) :
    ∃ more, more ≠ [] ∧ names = front ++ more := by
  obtain ⟨more, present, validMore, same⟩ :=
    below.exists_foldl_join (bytes_foldl_join_ne_nil nonempty front)
  rw [← List.foldl_append] at same
  refine ⟨more, present, foldl_join_injective valid ?_ same⟩
  intro name membership
  rcases List.mem_append.mp membership with inFront | inMore
  · exact validFront name inFront
  · exact validMore name inMore

end Path

/-- Below its root, a survey skips only what cannot be listed for the length of its path. -/
theorem Listing.pathLimit_le_of_mem_findings {excluded : ExcludedNames} {targetName : Bytes}
    {path : Path} {listing : Listing} {directory : SkippedDirectory}
    (membership : .skipped directory ∈ Listing.findings excluded targetName path listing) :
    Disk.pathLimit ≤ directory.path.bytes.length := by
  obtain ⟨names, _, _, _, _, _, rfl, _, long, _⟩ := mem_findings_iff.mp membership
  exact long

theorem Disk.reason_of_mem_rootFindings {disk : Disk} {root : Path}
    {directory : SkippedDirectory} (membership : .skipped directory ∈ disk.rootFindings root) :
    directory.reason = .notADirectory ∨
      ∃ cause, directory.reason = .unlistable cause ∧ cause.RefusesPath := by
  have only {reason : SkipReason} (found : .skipped directory ∈ [Finding.skipped ⟨root, reason⟩]) :
      directory.reason = reason :=
    congrArg SkippedDirectory.reason (Finding.skipped.inj (List.mem_singleton.mp found))
  unfold rootFindings at membership
  split at membership
  next failed => exact .inr ⟨_, only membership, refusesPath_of_inspect failed⟩
  next => cases membership
  next =>
    split at membership
    next failed => exact .inr ⟨_, only membership, refusesPath_of_inspect failed⟩
    next => exact .inl (only membership)
  next => exact .inl (only membership)

namespace Survey

variable {settings : Settings} {disk : Disk} {listing : Listing} {candidate : Path}
  {skipped : SkippedDirectory}

theorem mem_skipped_take_iff : skipped ∈ (take settings disk).skipped ↔
    .skipped skipped ∈ disk.findings settings.root settings.excluded settings.targetName := by
  simp only [take, ofFindings, List.mem_filterMap, Finding.skipped?_eq_some_iff, exists_eq_right]

/-- A directory is skipped because it is none, or because its path is refused. -/
theorem reason_of_mem_skipped_take (membership : skipped ∈ (take settings disk).skipped) :
    skipped.reason = .notADirectory ∨
      ∃ cause, skipped.reason = .unlistable cause ∧ cause.RefusesPath := by
  rw [mem_skipped_take_iff, Disk.findings_eq, List.mem_append] at membership
  rcases membership with atRoot | inside
  · exact Disk.reason_of_mem_rootFindings atRoot
  · split at inside
    next =>
      obtain ⟨_, _, _, _, _, _, rfl, _⟩ := Listing.mem_findings_iff.mp inside
      exact .inr ⟨_, rfl, .system .nameTooLong⟩
    next => cases inside

/-- Where there are candidates, the root leads to a directory, and they lie below it. -/
theorem exists_listing_of_mem_candidates
    (membership : candidate ∈ (take settings disk).candidates) :
    ∃ top listing, disk.locate .target settings.root = .ok top ∧
      disk.entry? top = some (.directory listing) ∧
      disk.listing? settings.root = some listing ∧
      candidate ∈ Listing.candidates settings.excluded (encode settings.targetName)
        settings.root listing := by
  rw [candidates_take] at membership
  split at membership
  next listing inspected =>
    obtain ⟨top, led, found⟩ := Disk.inspect_eq_ok_iff.mp inspected
    exact ⟨top, listing, led, found, Disk.listing?_eq_some_iff.mpr inspected, membership⟩
  next => cases membership

theorem isBelow_root_of_mem_candidates (wellFormed : disk.WellFormed)
    (among : candidate ∈ (take settings disk).candidates) : candidate.IsBelow settings.root := by
  obtain ⟨top, listing, led, found, _, among⟩ := exists_listing_of_mem_candidates among
  obtain ⟨names, content, reached, _, _, rfl⟩ := Listing.mem_candidates_iff_reaches.mp among
  exact Path.isBelow_foldl_join (Disk.locate_eq_ok_iff.mp led).1.nonempty reached.ne_nil
    (reached.validName (wellFormed.entry_wellFormed found))

/-- What is skipped where the root leads to a directory: the root, if it is a link, and what
cannot be listed below it. -/
theorem mem_skipped_take_cases (leads : disk.listing? settings.root = some listing)
    (membership : skipped ∈ (take settings disk).skipped) :
    (skipped = ⟨settings.root, .notADirectory⟩ ∧
      ∃ target, disk.inspect .entry settings.root = .ok (.link target)) ∨
    .skipped skipped ∈ Listing.findings settings.excluded (encode settings.targetName)
      settings.root listing := by
  rw [mem_skipped_take_iff, Disk.findings_eq, leads, List.mem_append] at membership
  rcases membership with atRoot | inside
  · rcases Disk.rootFindings_of_listing leads with nothing | ⟨found, linked⟩
    · rw [nothing] at atRoot
      cases atRoot
    · rw [found, List.mem_singleton] at atRoot
      exact .inl ⟨Finding.skipped.inj atRoot, linked⟩
  · exact .inr inside

/-- A candidate lies below a skipped directory only if that is the root, and a link. -/
theorem linked_of_isBelow (wellFormed : disk.WellFormed)
    (among : candidate ∈ (take settings disk).candidates)
    (beside : skipped ∈ (take settings disk).skipped) (below : candidate.IsBelow skipped.path) :
    skipped = ⟨settings.root, .notADirectory⟩ ∧
      ∃ target, disk.inspect .entry settings.root = .ok (.link target) := by
  obtain ⟨top, listing, led, found, leads, among⟩ := exists_listing_of_mem_candidates among
  have inside : Listing.WellFormed listing := wellFormed.entry_wellFormed found
  rcases mem_skipped_take_cases leads beside with atRoot | deeper
  · exact atRoot
  · obtain ⟨names, content, reached, _, listed, spelled⟩ :=
      Listing.mem_candidates_iff_reaches.mp among
    obtain ⟨front, entry, reachedFront, spelledFront⟩ :=
      Listing.exists_reaches_of_mem_findings deeper
    rw [spelled, show skipped.path = _ from spelledFront] at below
    obtain ⟨more, present, whole⟩ := below.exists_append (Disk.locate_eq_ok_iff.mp led).1.nonempty
      (reached.validName inside) (reachedFront.validName inside)
    have short := listed front more whole reachedFront.ne_nil present
    rw [← show skipped.path = _ from spelledFront] at short
    exact absurd short (Nat.not_lt.mpr (Listing.pathLimit_le_of_mem_findings deeper))

/-- Neither a candidate nor anything on the way to it from the root is a link. -/
theorem real_of_mem_candidates (wellFormed : disk.WellFormed) {place : Path}
    (among : candidate ∈ (take settings disk).candidates)
    (on : candidate = place ∨ candidate.IsBelow place) (below : place.IsBelow settings.root)
    (target : Path) : disk.inspect .entry place ≠ .ok (.link target) := by
  intro inspected
  obtain ⟨top, listing, led, found, _, among⟩ := exists_listing_of_mem_candidates among
  have inside : Listing.WellFormed listing := wellFormed.entry_wellFormed found
  have nonempty := (Disk.locate_eq_ok_iff.mp led).1.nonempty
  obtain ⟨names, content, reached, _, _, spelled⟩ := Listing.mem_candidates_iff_reaches.mp among
  obtain ⟨front, start, validFront, rfl⟩ := below.exists_foldl_join nonempty
  have real : ∃ entry, Listing.Reaches settings.excluded listing front entry ∧
      ∀ target, entry ≠ .link target := by
    rw [spelled] at on
    rcases on with same | deeper
    · have sameNames := Path.foldl_join_injective (reached.validName inside) validFront same
      exact ⟨_, sameNames ▸ reached, by simp⟩
    · obtain ⟨more, present, whole⟩ :=
        deeper.exists_append nonempty (reached.validName inside) validFront
      obtain ⟨inner, reachedFront, _⟩ := (whole ▸ reached).exists_directory start present
      exact ⟨_, reachedFront, by simp⟩
  obtain ⟨entry, reachedFront, notLink⟩ := real
  obtain ⟨location, ledThere, linked⟩ := Disk.inspect_eq_ok_iff.mp inspected
  have passable := (Disk.locate_eq_ok_iff.mp ledThere).1
  rw [reachedFront.locate inside notLink led found passable, Except.ok.injEq] at ledThere
  obtain ⟨_, there, _⟩ := (reaches_iff wellFormed found).mp reachedFront
  rw [← ledThere, there, Option.some.injEq] at linked
  exact notLink target linked

end Survey

end ImportSuffix
