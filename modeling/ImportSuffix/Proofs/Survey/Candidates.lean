import ImportSuffix.Proofs.Survey.Findings
import Mathlib.Data.List.Nodup

/-!
The candidates of a survey.

They are the paths of files with the right name that the survey reaches, and each
of them comes once.
-/

namespace ImportSuffix

open Text

namespace Finding

variable {first second : Finding}

theorem eq_of_candidate? {path : Path} (isFirst : path ∈ first.candidate?)
    (isSecond : path ∈ second.candidate?) : first = second := by
  cases first <;> cases isFirst
  cases second <;> cases isSecond
  rfl

theorem candidate?_eq_some_iff {path : Path} {finding : Finding} :
    finding.candidate? = some path ↔ finding = .candidate path := by
  constructor
  · exact fun isCandidate => eq_of_candidate? isCandidate rfl
  · rintro rfl
    rfl

theorem eq_of_skipped? {directory : SkippedDirectory} (isFirst : directory ∈ first.skipped?)
    (isSecond : directory ∈ second.skipped?) : first = second := by
  cases first <;> cases isFirst
  cases second <;> cases isSecond
  rfl

theorem skipped?_eq_some_iff {directory : SkippedDirectory} {finding : Finding} :
    finding.skipped? = some directory ↔ finding = .skipped directory := by
  constructor
  · exact fun isSkipped => eq_of_skipped? isSkipped rfl
  · rintro rfl
    rfl

end Finding

namespace Listing

def candidates (excluded : ExcludedNames) (targetName : Bytes) (path : Path)
    (listing : Listing) : List Path :=
  (Listing.findings excluded targetName path listing).filterMap Finding.candidate?

section

variable {excluded : ExcludedNames} {targetName name : Bytes} {path : Path} {entry : Entry}
  {rest inner listing : Listing}

theorem candidates_cons :
    candidates excluded targetName path ((name, entry) :: rest) =
      candidates excluded targetName path [(name, entry)] ++
        candidates excluded targetName path rest := by
  rw [candidates, findings_cons, List.filterMap_append, candidates, candidates]

theorem candidates_directory :
    candidates excluded targetName path [(name, .directory inner)] =
      if excluded.contains name = false ∧ (path.join name).bytes.length < Disk.pathLimit then
        candidates excluded targetName (path.join name) inner
      else [] := by
  rw [candidates, findings_directory]
  cases excluded.contains name with
  | true => rfl
  | false =>
      by_cases long : Disk.pathLimit ≤ (path.join name).bytes.length
      · simp [long, Nat.not_lt.mpr long, Finding.candidate?]
      · simp [long, Nat.lt_of_not_le long, candidates]

theorem candidates_leaf (leaf : entry.isDirectory = false) :
    candidates excluded targetName path [(name, entry)] =
      if name = targetName ∧ entry.kind = .file then [path.join name] else [] := by
  rw [candidates, findings_leaf leaf]
  split <;> rfl

theorem mem_candidates_iff {found : Path} :
    found ∈ candidates excluded targetName path listing ↔
      .candidate found ∈ findings excluded targetName path listing := by
  simp only [candidates, List.mem_filterMap, Finding.candidate?_eq_some_iff, exists_eq_right]

theorem mem_candidates_iff_reaches {found : Path} :
    found ∈ candidates excluded targetName path listing ↔
      ∃ names content, Listing.Reaches excluded listing names (.file content) ∧
        names.getLast? = some targetName ∧ path.Listed names ∧
        found = names.foldl Path.join path := by
  rw [mem_candidates_iff, mem_findings_iff]
  constructor
  · rintro ⟨names, _, _, reached, last, listed, spelled, rfl, content, rfl⟩
    exact ⟨names, content, reached, last, listed, spelled⟩
  · rintro ⟨names, content, reached, last, listed, spelled⟩
    exact ⟨names, _, _, reached, last, listed, spelled, rfl, content, rfl⟩

end

end Listing

theorem Disk.filterMap_candidate?_rootFindings (disk : Disk) (root : Path) :
    (disk.rootFindings root).filterMap Finding.candidate? = [] := by
  rcases disk.exists_rootFindings_eq root with found | ⟨reason, found⟩ <;> rw [found] <;> rfl

/-- A survey collects the candidates below its root, if that leads to a directory. -/
theorem Survey.candidates_take (settings : Settings) (disk : Disk) :
    (Survey.take settings disk).candidates =
      match disk.inspect .target settings.root with
      | .ok (.directory listing) =>
          Listing.candidates settings.excluded (encode settings.targetName) settings.root listing
      | _ => [] := by
  simp only [take, ofFindings, Disk.findings_eq, List.filterMap_append,
    Disk.filterMap_candidate?_rootFindings, List.nil_append, Disk.listing?]
  cases disk.inspect .target settings.root with
  | error cause => rfl
  | ok entry => cases entry <;> rfl

/-- The place of a file below the directory to which the root leads, and its path. From
that directory down to the file there is no link and no excluded directory. -/
def Settings.Collects (settings : Settings) (disk : Disk) (path : Path)
    (location : Location) : Prop :=
  ∃ top listing names content, disk.locate .target settings.root = .ok top ∧
    disk.entry? top = some (.directory listing) ∧
    Listing.Reaches settings.excluded listing names (.file content) ∧
    names.getLast? = some (encode settings.targetName) ∧
    path = names.foldl Path.join settings.root ∧ location = top ++ names

namespace Survey

variable {settings : Settings} {disk : Disk}

/-- Where a candidate leads, if it leads anywhere, is the place of a file below the root. -/
theorem collects_of_mem_candidates (wellFormed : disk.WellFormed) {path : Path}
    (membership : path ∈ (take settings disk).candidates) {location : Location}
    (led : disk.locate .target path = .ok location) : settings.Collects disk path location := by
  rw [candidates_take] at membership
  split at membership
  next listing inspected =>
    obtain ⟨top, ledRoot, found⟩ := Disk.inspect_eq_ok_iff.mp inspected
    obtain ⟨names, content, reached, last, _, rfl⟩ :=
      Listing.mem_candidates_iff_reaches.mp membership
    have inside : Listing.WellFormed listing := wellFormed.entry_wellFormed found
    have passable := (Disk.locate_eq_ok_iff.mp led).1
    have there : disk.locate .target (names.foldl Path.join settings.root) = .ok (top ++ names) :=
      reached.locate inside (by simp) ledRoot found passable
    rw [there, Except.ok.injEq] at led
    exact ⟨top, listing, names, content, ledRoot, found, reached, last, rfl, led.symm⟩
  next => cases membership

theorem nodup_candidates (wellFormed : disk.WellFormed) :
    (take settings disk).candidates.Nodup :=
  (disk.nodup_findings wellFormed settings.excluded settings.targetName).filterMap
    fun _ _ _ => Finding.eq_of_candidate?

theorem nodup_skipped (wellFormed : disk.WellFormed) : (take settings disk).skipped.Nodup :=
  (disk.nodup_findings wellFormed settings.excluded settings.targetName).filterMap
    fun _ _ _ => Finding.eq_of_skipped?

/-- No two candidates lead to the same file. -/
theorem pairwise_apart_candidates (wellFormed : disk.WellFormed) :
    (take settings disk).candidates.Pairwise disk.Apart := by
  apply List.Pairwise.imp_of_mem _ (nodup_candidates wellFormed)
  intro first second membershipFirst membershipSecond different location ledFirst ledSecond
  obtain ⟨top, _, names, _, ledRoot, _, _, _, spelled, here⟩ :=
    collects_of_mem_candidates wellFormed membershipFirst ledFirst
  obtain ⟨other, _, others, _, ledRootToo, _, _, _, spelledToo, there⟩ :=
    collects_of_mem_candidates wellFormed membershipSecond ledSecond
  rw [ledRoot, Except.ok.injEq] at ledRootToo
  subst ledRootToo
  have same : names = others := List.append_cancel_left (here.symm.trans there)
  apply different
  rw [spelled, spelledToo, same]

end Survey

end ImportSuffix
