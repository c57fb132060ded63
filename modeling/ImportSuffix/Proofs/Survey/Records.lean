import ImportSuffix.Proofs.Survey.Exclusion
import ImportSuffix.Proofs.Survey.Skipped

/-!
What a survey notes on its way.

Each candidate is noted once, and so is each directory that is left out.  Together, the notes
account for every file with the right name below the root: it is a candidate, or it lies below
exactly one directory that is noted as left out.
-/

namespace ImportSuffix

open Text

namespace Finding

variable {first second finding : Finding} {path : Path}

theorem eq_of_record? {record : Record} (ofFirst : record ∈ first.record?)
    (ofSecond : record ∈ second.record?) : first = second := by
  rcases first with _ | _ | ⟨_, _ | _⟩ <;> cases ofFirst <;>
    rcases second with _ | _ | ⟨_, _ | _⟩ <;> cases ofSecond <;> rfl

theorem record?_eq_foundCandidate_iff :
    finding.record? = some (.foundCandidate path) ↔ finding = .candidate path := by
  constructor
  · exact fun noted => eq_of_record? noted rfl
  · rintro rfl
    rfl

theorem record?_eq_excluding_iff :
    finding.record? = some (.excluding path) ↔ finding = .excluded path := by
  constructor
  · exact fun noted => eq_of_record? noted rfl
  · rintro rfl
    rfl

end Finding

namespace Listing

variable {excluded : ExcludedNames} {targetName : Bytes} {path place : Path} {listing : Listing}

/-- A directory that is left out has an excluded name, and none on the way to it has. -/
theorem mem_excluded_iff_reaches :
    .excluded place ∈ findings excluded targetName path listing ↔
      ∃ above name inner, Listing.Reaches excluded listing (above ++ [name]) (.directory inner) ∧
        excluded.contains name = true ∧ path.Listed (above ++ [name]) ∧
        place = (above ++ [name]).foldl Path.join path := by
  rw [mem_findings_iff]
  constructor
  · rintro ⟨names, name, _, reached, last, listed, spelled, isExcluded, inner, rfl⟩
    obtain ⟨above, rfl⟩ := List.getLast?_eq_some_iff.mp last
    exact ⟨above, name, inner, reached, isExcluded, listed, spelled⟩
  · rintro ⟨above, name, inner, reached, isExcluded, listed, spelled⟩
    exact ⟨_, name, _, reached, List.getLast?_concat, listed, spelled, isExcluded, inner, rfl⟩

end Listing

namespace Survey

variable {settings : Settings} {disk : Disk} {top : Location} {listing : Listing} {path : Path}

theorem nodup_records (wellFormed : disk.WellFormed) : (take settings disk).records.Nodup :=
  (disk.nodup_findings wellFormed settings.excluded settings.targetName).filterMap
    fun _ _ _ => Finding.eq_of_record?

/-- The files that a survey notes are its candidates. -/
theorem foundCandidate_mem_records_iff :
    .foundCandidate path ∈ (take settings disk).records ↔
      path ∈ (take settings disk).candidates := by
  simp only [take, ofFindings, List.mem_filterMap, Finding.record?_eq_foundCandidate_iff,
    Finding.candidate?_eq_some_iff]

section

variable {names front : Location} {entry : Entry} {first second : Path}
  (wellFormed : disk.WellFormed) (led : disk.locate .target settings.root = .ok top)
  (found : disk.entry? top = some (.directory listing))

include wellFormed led found

/-- The directories that a survey notes are those with an excluded name, below none. -/
theorem excluding_mem_records_iff (listable : settings.Listable disk) :
    .excluding path ∈ (take settings disk).records ↔
      ∃ above name inner, disk.entry? (top ++ (above ++ [name])) = some (.directory inner) ∧
        settings.excluded.contains name = true ∧
        (∀ other ∈ above, settings.excluded.contains other = false) ∧
        path = settings.root.below (above ++ [name]) := by
  have leads := Disk.listing?_eq_some_iff.mpr (Disk.inspect_eq_ok_iff.mpr ⟨top, led, found⟩)
  have noted : .excluding path ∈ (take settings disk).records ↔
      .excluded path ∈ Listing.findings settings.excluded (encode settings.targetName)
        settings.root listing := by
    simp only [take, ofFindings, List.mem_filterMap, Finding.record?_eq_excluding_iff,
      exists_eq_right, Disk.findings_eq, leads, List.mem_append]
    refine or_iff_right ?_
    rcases disk.exists_rootFindings_eq settings.root with nothing | ⟨reason, skipped⟩
    · simp [nothing]
    · simp [skipped]
  rw [noted]
  constructor
  · intro membership
    obtain ⟨above, name, inner, reached, isExcluded, _, spelled⟩ :=
      Listing.mem_excluded_iff_reaches.mp membership
    obtain ⟨_, there, allowed⟩ := (reaches_iff wellFormed found).mp reached
    rw [foldl_join_of_reaches wellFormed led found reached] at spelled
    rw [List.dropLast_concat] at allowed
    exact ⟨above, name, inner, there, isExcluded, allowed, spelled⟩
  · rintro ⟨above, name, inner, there, isExcluded, allowed, rfl⟩
    have reached :
        Listing.Reaches settings.excluded listing (above ++ [name]) (.directory inner) := by
      refine (reaches_iff wellFormed found).mpr ⟨by simp, there, ?_⟩
      rwa [List.dropLast_concat]
    rw [← foldl_join_of_reaches wellFormed led found reached]
    have listed := ((listable_iff wellFormed led found).mp listable).listed reached
    exact Listing.mem_excluded_iff_reaches.mpr
      ⟨above, name, inner, reached, isExcluded, listed, rfl⟩

/-- Below the root, one path lies below another only along the way that a survey takes. -/
theorem below_isBelow_below_iff {other : Entry} (present : names ≠ []) (start : front ≠ [])
    (there : disk.entry? (top ++ names) = some entry)
    (onTheWay : disk.entry? (top ++ front) = some other) :
    (settings.root.below names).IsBelow (settings.root.below front) ↔
      ∃ more, more ≠ [] ∧ names = front ++ more := by
  have inside : Listing.WellFormed listing := wellFormed.entry_wellFormed found
  have nonempty := (Disk.locate_eq_ok_iff.mp led).1.nonempty
  have reached := reaches_of_entry? wellFormed found present there
  have reachedFront := reaches_of_entry? wellFormed found start onTheWay
  rw [← foldl_join_of_reaches wellFormed led found reached,
    ← foldl_join_of_reaches wellFormed led found reachedFront]
  constructor
  · intro below
    exact below.exists_append nonempty (reached.validName inside) (reachedFront.validName inside)
  · rintro ⟨more, presentMore, rfl⟩
    rw [List.foldl_append]
    refine Path.isBelow_foldl_join (Path.bytes_foldl_join_ne_nil nonempty front) presentMore ?_
    intro name membership
    exact reached.validName inside name (List.mem_append_right front membership)

/-- What lies below a directory that is noted is reached over a first excluded name. -/
theorem exists_append_of_isBelow_excluding (listable : settings.Listable disk)
    (present : names ≠ []) (there : disk.entry? (top ++ names) = some entry)
    (noted : .excluding path ∈ (take settings disk).records)
    (below : (settings.root.below names).IsBelow path) :
    ∃ above name more, more ≠ [] ∧ names = above ++ [name] ++ more ∧
      settings.excluded.contains name = true ∧
      (∀ other ∈ above, settings.excluded.contains other = false) ∧
      path = settings.root.below (above ++ [name]) := by
  obtain ⟨above, name, inner, onTheWay, isExcluded, allowed, rfl⟩ :=
    (excluding_mem_records_iff wellFormed led found listable).mp noted
  obtain ⟨more, presentMore, whole⟩ :=
    (below_isBelow_below_iff wellFormed led found present (by simp) there onTheWay).mp below
  exact ⟨above, name, more, presentMore, whole, isExcluded, allowed, rfl⟩

theorem not_isBelow_excluding_of_allowed (listable : settings.Listable disk)
    (present : names ≠ []) (there : disk.entry? (top ++ names) = some entry)
    (allowed : ∀ name ∈ names.dropLast, settings.excluded.contains name = false)
    (noted : .excluding path ∈ (take settings disk).records) :
    ¬(settings.root.below names).IsBelow path := by
  intro below
  obtain ⟨above, name, more, presentMore, rfl, isExcluded, _⟩ :=
    exists_append_of_isBelow_excluding wellFormed led found listable present there noted below
  have onTheWay : name ∈ (above ++ [name] ++ more).dropLast := by
    rw [List.dropLast_append_of_ne_nil presentMore]
    simp
  rw [allowed name onTheWay] at isExcluded
  cases isExcluded

theorem not_isBelow_excluding (listable : settings.Listable disk)
    (notedFirst : .excluding first ∈ (take settings disk).records)
    (notedSecond : .excluding second ∈ (take settings disk).records) :
    ¬first.IsBelow second := by
  obtain ⟨above, name, inner, there, _, allowed, rfl⟩ :=
    (excluding_mem_records_iff wellFormed led found listable).mp notedFirst
  refine not_isBelow_excluding_of_allowed wellFormed led found listable (by simp) there ?_
    notedSecond
  rwa [List.dropLast_concat]

/-- On the way to one entry there is only one first excluded name. -/
theorem eq_of_isBelow_excluding (listable : settings.Listable disk) (present : names ≠ [])
    (there : disk.entry? (top ++ names) = some entry)
    (notedFirst : .excluding first ∈ (take settings disk).records)
    (belowFirst : (settings.root.below names).IsBelow first)
    (notedSecond : .excluding second ∈ (take settings disk).records)
    (belowSecond : (settings.root.below names).IsBelow second) : first = second := by
  obtain ⟨above, name, more, _, whole, isExcluded, allowed, rfl⟩ :=
    exists_append_of_isBelow_excluding wellFormed led found listable present there notedFirst
      belowFirst
  obtain ⟨aboveToo, nameToo, moreToo, _, wholeToo, isExcludedToo, allowedToo, rfl⟩ :=
    exists_append_of_isBelow_excluding wellFormed led found listable present there notedSecond
      belowSecond
  have sameAbove : above = aboveToo := by
    trans names.takeWhile fun other => !settings.excluded.contains other
    · rw [whole, List.append_assoc, List.takeWhile_append_of_pos (by simpa using allowed)]
      simp [isExcluded]
    · rw [wholeToo, List.append_assoc, List.takeWhile_append_of_pos (by simpa using allowedToo)]
      simp [isExcludedToo]
  rw [whole, sameAbove, List.append_assoc, List.append_assoc] at wholeToo
  have sameName := (List.cons.inj (List.append_cancel_left wholeToo)).1
  rw [sameAbove, sameName]

/-- Above whatever has an excluded name on its way, a directory is noted. -/
theorem exists_excluding (listable : settings.Listable disk)
    (there : disk.entry? (top ++ names) = some entry) {name : Bytes}
    (onTheWay : name ∈ names.dropLast) (isExcluded : settings.excluded.contains name = true) :
    ∃ directory, (settings.root.below names).IsBelow directory ∧
      .excluding directory ∈ (take settings disk).records := by
  have present : names ≠ [] := by
    rintro rfl
    cases onTheWay
  have someExcluded : (names.dropLast.find? settings.excluded.contains).isSome :=
    List.find?_isSome.mpr ⟨name, onTheWay, isExcluded⟩
  obtain ⟨first, search⟩ := Option.isSome_iff_exists.mp someExcluded
  obtain ⟨firstExcluded, above, rest, way, allowed⟩ := List.find?_eq_some_iff_append.mp search
  obtain ⟨last, whole⟩ : ∃ last, names = above ++ [first] ++ (rest ++ [last]) := by
    refine ⟨names.getLast present, ?_⟩
    conv_lhs => rw [← List.dropLast_concat_getLast present, way]
    simp
  have reached := reaches_of_entry? wellFormed found present there
  obtain ⟨inner, reachedFirst, _⟩ := (whole ▸ reached).exists_directory (by simp) (by simp)
  obtain ⟨_, directoryThere, _⟩ := (reaches_iff wellFormed found).mp reachedFirst
  refine ⟨settings.root.below (above ++ [first]), ?_, ?_⟩
  · exact (below_isBelow_below_iff wellFormed led found present (by simp) there
      directoryThere).mpr ⟨rest ++ [last], by simp, whole⟩
  · exact (excluding_mem_records_iff wellFormed led found listable).mpr
      ⟨above, first, inner, directoryThere, firstExcluded, by simpa using allowed, rfl⟩

end

/-- The path is a candidate, noted once, and lies below no directory that is left out. -/
def Collected (survey : Survey) (path : Path) : Prop :=
  path ∈ survey.candidates ∧ survey.records.count (.foundCandidate path) = 1 ∧
    ∀ directory, path.IsBelow directory → .excluding directory ∉ survey.records

/-- The path is no candidate, and lies below one directory that is left out. -/
def Hidden (survey : Survey) (path : Path) : Prop :=
  path ∉ survey.candidates ∧ .foundCandidate path ∉ survey.records ∧
    ∃! directory, path.IsBelow directory ∧ .excluding directory ∈ survey.records

/-- The notes of a survey account for the files below its root, which leads to `top`. -/
structure Accounts (settings : Settings) (disk : Disk) (top : Location) (survey : Survey) :
    Prop where
  files : ∀ names content, names ≠ [] → disk.entry? (top ++ names) = some (.file content) →
    names.getLast? = some (encode settings.targetName) →
    survey.Collected (settings.root.below names) ∨ survey.Hidden (settings.root.below names)
  outermost : ∀ path, .excluding path ∈ survey.records ↔
    ∃ above name inner, disk.entry? (top ++ (above ++ [name])) = some (.directory inner) ∧
      settings.excluded.contains name = true ∧
      (∀ other ∈ above, settings.excluded.contains other = false) ∧
      path = settings.root.below (above ++ [name])
  once : ∀ path, .excluding path ∈ survey.records → survey.records.count (.excluding path) = 1
  apart : ∀ first second, .excluding first ∈ survey.records → .excluding second ∈ survey.records →
    ¬first.IsBelow second

section

variable {names : Location} {content : Bytes} (wellFormed : disk.WellFormed)
  (listable : settings.Listable disk) (led : disk.locate .target settings.root = .ok top)
  (found : disk.entry? top = some (.directory listing)) (present : names ≠ [])
  (there : disk.entry? (top ++ names) = some (.file content))

include wellFormed listable led found present there

theorem collected_of_allowed (last : names.getLast? = some (encode settings.targetName))
    (allowed : ∀ name ∈ names.dropLast, settings.excluded.contains name = false) :
    (take settings disk).Collected (settings.root.below names) := by
  have reached : Listing.Reaches settings.excluded listing names (.file content) :=
    (reaches_iff wellFormed found).mpr ⟨present, there, allowed⟩
  have candidate : settings.root.below names ∈ (take settings disk).candidates :=
    (mem_candidates_take_iff wellFormed listable led found).mpr
      ⟨names, content, reached, last, rfl⟩
  refine ⟨candidate, ?_, ?_⟩
  · exact List.count_eq_one_of_mem (nodup_records wellFormed)
      (foundCandidate_mem_records_iff.mpr candidate)
  · intro directory below noted
    exact not_isBelow_excluding_of_allowed wellFormed led found listable present there allowed
      noted below

theorem hidden_of_excluded {name : Bytes} (onTheWay : name ∈ names.dropLast)
    (isExcluded : settings.excluded.contains name = true) :
    (take settings disk).Hidden (settings.root.below names) := by
  have absent : settings.root.below names ∉ (take settings disk).candidates := by
    intro candidate
    obtain ⟨others, _, reached, _, same⟩ :=
      (mem_candidates_take_iff wellFormed listable led found).mp candidate
    have anyway := reaches_of_entry? wellFormed found present there
    obtain rfl : names = others := eq_of_below_eq wellFormed led found anyway reached same
    obtain ⟨_, _, allowed⟩ := (reaches_iff wellFormed found).mp reached
    rw [allowed name onTheWay] at isExcluded
    cases isExcluded
  obtain ⟨directory, below, noted⟩ :=
    exists_excluding wellFormed led found listable there onTheWay isExcluded
  refine ⟨absent, mt foundCandidate_mem_records_iff.mp absent, directory, ⟨below, noted⟩, ?_⟩
  rintro other ⟨belowOther, notedOther⟩
  exact eq_of_isBelow_excluding wellFormed led found listable present there notedOther
    belowOther noted below

end

theorem take_accounts (wellFormed : disk.WellFormed) (listable : settings.Listable disk)
    (led : disk.locate .target settings.root = .ok top)
    (found : disk.entry? top = some (.directory listing)) :
    (take settings disk).Accounts settings disk top := by
  refine ⟨?_, ?_, ?_, ?_⟩
  · intro names content present there last
    by_cases allowed : ∀ name ∈ names.dropLast, settings.excluded.contains name = false
    · exact .inl (collected_of_allowed wellFormed listable led found present there last allowed)
    · simp only [not_forall, Bool.not_eq_false] at allowed
      obtain ⟨name, onTheWay, isExcluded⟩ := allowed
      exact .inr (hidden_of_excluded wellFormed listable led found present there onTheWay
        isExcluded)
  · exact fun path => excluding_mem_records_iff wellFormed led found listable
  · exact fun path noted => List.count_eq_one_of_mem (nodup_records wellFormed) noted
  · exact fun first second => not_isBelow_excluding wellFormed led found listable

def crossedSettings : Settings :=
  { Settings.ofRoot (.ofText "packages") with excluded := .ofList ["build", "dist"] }

/-- Of two directories to leave out, one inside the other, only the outer one is noted. -/
theorem take_accounts_crossed :
    crossedDisk.WellFormed ∧ crossedSettings.Listable crossedDisk ∧
      crossedDisk.locate .target crossedSettings.root = .ok [encode "packages"] ∧
      (take crossedSettings crossedDisk).records =
        [.excluding (.ofText "packages/build"), .excluding (.ofText "packages/dist"),
          .foundCandidate (.ofText "packages/index.ts")] ∧
      (take crossedSettings crossedDisk).Accounts crossedSettings crossedDisk
        [encode "packages"] := by
  have wellFormed : crossedDisk.WellFormed := by decide +kernel
  have led : crossedDisk.locate .target crossedSettings.root = .ok [encode "packages"] := by
    decide +kernel
  have listable : crossedSettings.Listable crossedDisk := by
    apply (listable_iff wellFormed led rfl).mpr
    apply (Listing.skipped_eq_nil_iff (encode crossedSettings.targetName)).mp
    decide +kernel
  exact ⟨wellFormed, listable, led, by decide +kernel,
    take_accounts wellFormed listable led rfl⟩

end Survey

end ImportSuffix
