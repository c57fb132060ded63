import ImportSuffix.Proofs.Disk.Emptied
import ImportSuffix.Proofs.Survey.Reach

/-!
What a survey finds, in the order in which it finds it.

A survey may find its root not to be a directory.  All else that it finds lies below the
directory to which the root leads, at a path that is made of the names on the way down.
Different ways down make different paths, so nothing is found twice.  What the files contain
does not matter.
-/

namespace ImportSuffix

open Text

namespace Finding

/-- The path at which something is found. -/
def path : Finding → Path
  | candidate path | excluded path => path
  | skipped directory => directory.path

/-- What a survey finds at an entry of some path and name, whatever is below that entry. -/
def IsAt (excluded : ExcludedNames) (targetName : Bytes) (path : Path) (name : Bytes)
    (entry : Entry) : Finding → Prop
  | .candidate found => found = path ∧ name = targetName ∧ ∃ content, entry = .file content
  | .excluded found =>
      found = path ∧ excluded.contains name = true ∧ ∃ inner, entry = .directory inner
  | .skipped directory =>
      directory = ⟨path, .unlistable (.system .nameTooLong)⟩ ∧ excluded.contains name = false ∧
        Disk.pathLimit ≤ path.bytes.length ∧ ∃ inner, entry = .directory inner

theorem IsAt.path_eq {excluded : ExcludedNames} {targetName name : Bytes} {place : Path}
    {entry : Entry} {finding : Finding} (isAt : finding.IsAt excluded targetName place name entry) :
    finding.path = place := by
  cases finding with
  | candidate found => exact isAt.1
  | excluded found => exact isAt.1
  | skipped directory => exact congrArg SkippedDirectory.path isAt.1

end Finding

namespace Listing

section

variable {excluded : ExcludedNames} {targetName name : Bytes} {path : Path} {entry : Entry}
  {rest inner listing : Listing} {finding : Finding}

theorem findings_cons :
    findings excluded targetName path ((name, entry) :: rest) =
      findings excluded targetName path [(name, entry)] ++
        findings excluded targetName path rest := by
  simp [findings]

theorem findings_directory :
    findings excluded targetName path [(name, .directory inner)] =
      if excluded.contains name then [.excluded (path.join name)]
      else if Disk.pathLimit ≤ (path.join name).bytes.length then
        [.skipped ⟨path.join name, .unlistable (.system .nameTooLong)⟩]
      else findings excluded targetName (path.join name) inner := by
  rw [findings, findings, List.append_nil, Entry.findings]

theorem findings_leaf (leaf : entry.isDirectory = false) :
    findings excluded targetName path [(name, entry)] =
      if name = targetName ∧ entry.kind = .file then [.candidate (path.join name)] else [] := by
  rw [findings, findings, List.append_nil]
  cases entry with
  | directory inner => cases leaf
  | file content => simp [Entry.findings, Entry.kind]
  | _ => simp [Entry.findings, Entry.kind]

theorem mem_findings_leaf_iff (leaf : entry.isDirectory = false) :
    finding ∈ findings excluded targetName path [(name, entry)] ↔
      finding.IsAt excluded targetName (path.join name) name entry := by
  rw [findings_leaf leaf]
  cases entry with
  | directory inner => cases leaf
  | file content =>
      by_cases chosen : name = targetName <;> cases finding <;>
        simp [Finding.IsAt, Entry.kind, chosen]
  | _ => cases finding <;> simp [Finding.IsAt, Entry.kind]

theorem mem_findings_directory_iff :
    finding ∈ findings excluded targetName path [(name, .directory inner)] ↔
      finding.IsAt excluded targetName (path.join name) name (.directory inner) ∨
        excluded.contains name = false ∧ (path.join name).bytes.length < Disk.pathLimit ∧
          finding ∈ findings excluded targetName (path.join name) inner := by
  rw [findings_directory]
  by_cases isExcluded : excluded.contains name = true
  · cases finding <;> simp [Finding.IsAt, isExcluded]
  · by_cases long : Disk.pathLimit ≤ (path.join name).bytes.length
    · cases finding <;> simp [Finding.IsAt, isExcluded, long, Nat.not_lt.mpr long]
    · cases finding <;> simp [Finding.IsAt, isExcluded, long, Nat.lt_of_not_le long]

/-- A survey finds what there is at the entries that it reaches, if it can list all directories
on the way. -/
theorem mem_findings_iff :
    finding ∈ findings excluded targetName path listing ↔
      ∃ names name entry, Listing.Reaches excluded listing names entry ∧
        names.getLast? = some name ∧ path.Listed names ∧
        finding.IsAt excluded targetName (names.foldl Path.join path) name entry := by
  induction listing using Listing.induction generalizing path with
  | nil =>
      refine iff_of_false List.not_mem_nil ?_
      rintro ⟨names, name, entry, reached, _⟩
      cases reached <;> contradiction
  | leaf name entry rest leaf inductionHypothesis =>
      rw [findings_cons, List.mem_append, mem_findings_leaf_iff leaf, inductionHypothesis]
      constructor
      · rintro (here | ⟨names, last, found, reached, told⟩)
        · exact ⟨[name], name, entry, .entry List.mem_cons_self, rfl, path.listed_singleton name,
            here⟩
        · exact ⟨names, last, found, reached.mono (List.subset_cons_self _ _), told⟩
      · rintro ⟨names, last, found, reached, isLast, listed, here⟩
        rcases reaches_cons_iff.mp reached with first | later
        · rcases reaches_singleton_iff.mp first with ⟨rfl, rfl⟩ | ⟨_, _, rfl, _⟩
          · cases isLast
            exact .inl here
          · cases leaf
        · exact .inr ⟨names, last, found, later, isLast, listed, here⟩
  | directory name inner rest inductionInner inductionRest =>
      rw [findings_cons, List.mem_append, mem_findings_directory_iff, inductionInner,
        inductionRest]
      constructor
      · rintro ((here | ⟨allowed, short, names, last, found, reached, isLast, listed, below⟩) |
          ⟨names, last, found, reached, told⟩)
        · exact ⟨[name], name, _, .entry List.mem_cons_self, rfl, path.listed_singleton name, here⟩
        · refine ⟨name :: names, last, found, .down List.mem_cons_self allowed reached, ?_,
            (Path.listed_cons_iff reached.ne_nil).mpr ⟨short, listed⟩, below⟩
          rw [List.getLast?_cons_of_ne_nil reached.ne_nil, isLast]
        · exact ⟨names, last, found, reached.mono (List.subset_cons_self _ _), told⟩
      · rintro ⟨names, last, found, reached, isLast, listed, here⟩
        rcases reaches_cons_iff.mp reached with first | later
        · rcases reaches_singleton_iff.mp first with
            ⟨rfl, rfl⟩ | ⟨_, others, same, rfl, allowed, further⟩
          · cases isLast
            exact .inl (.inl here)
          · cases same
            obtain ⟨short, listedBelow⟩ := (Path.listed_cons_iff further.ne_nil).mp listed
            rw [List.getLast?_cons_of_ne_nil further.ne_nil] at isLast
            exact .inl (.inr ⟨allowed, short, others, last, found, further, isLast, listedBelow,
              here⟩)
        · exact .inr ⟨names, last, found, later, isLast, listed, here⟩

/-- Whatever is found below a directory is reached there, and its path says how. -/
theorem exists_reaches_of_mem_findings
    (membership : finding ∈ findings excluded targetName path listing) :
    ∃ names entry, Listing.Reaches excluded listing names entry ∧
      finding.path = names.foldl Path.join path := by
  obtain ⟨names, _, entry, reached, _, _, here⟩ := mem_findings_iff.mp membership
  exact ⟨names, entry, reached, here.path_eq⟩

/-- Nothing is found below entries of different names at once, whatever is excluded. -/
theorem findings_apart {other : ExcludedNames}
    (wellFormed : Listing.WellFormed ((name, entry) :: rest)) :
    ∀ first ∈ findings excluded targetName path [(name, entry)],
      ∀ later ∈ findings other targetName path rest, first.path ≠ later.path := by
  intro first membershipFirst later membershipLater same
  obtain ⟨valid, absent, below, wellFormedRest⟩ := wellFormed
  have alone : Listing.WellFormed [(name, entry)] := ⟨valid, by simp, below, trivial⟩
  obtain ⟨names, _, reached, spelled⟩ := exists_reaches_of_mem_findings membershipFirst
  obtain ⟨others, _, reachedRest, spelledRest⟩ :=
    exists_reaches_of_mem_findings membershipLater
  have sameNames : names = others := by
    apply Path.foldl_join_injective (reached.validName alone) (reachedRest.validName wellFormedRest)
    rw [← spelled, ← spelledRest, same]
  obtain ⟨head, tail, rfl, isName⟩ := reached.exists_head
  obtain ⟨next, otherTail, rfl, inRest⟩ := reachedRest.exists_head
  rw [List.map_singleton, List.mem_singleton] at isName
  rw [← (List.cons.inj sameNames).1, isName] at inRest
  exact absent inRest

theorem ne_of_mem_findings (wellFormed : Listing.WellFormed ((name, entry) :: rest)) :
    ∀ first ∈ findings excluded targetName path [(name, entry)],
      ∀ later ∈ findings excluded targetName path rest, first ≠ later := by
  intro first membershipFirst later membershipLater same
  exact findings_apart wellFormed first membershipFirst later membershipLater
    (congrArg Finding.path same)

theorem nodup_findings (wellFormed : Listing.WellFormed listing) :
    (findings excluded targetName path listing).Nodup := by
  induction listing using Listing.induction generalizing path with
  | nil => exact List.nodup_nil
  | leaf name entry rest leaf inductionHypothesis =>
      rw [findings_cons, List.nodup_append]
      refine ⟨?_, inductionHypothesis wellFormed.2.2.2, ne_of_mem_findings wellFormed⟩
      rw [findings_leaf leaf]
      split <;> simp
  | directory name inner rest inductionInner inductionRest =>
      rw [findings_cons, List.nodup_append]
      refine ⟨?_, inductionRest wellFormed.2.2.2, ne_of_mem_findings wellFormed⟩
      rw [findings_directory]
      split
      · simp
      · split
        · simp
        · exact inductionInner wellFormed.2.2.1

/-- A survey reads no file. -/
theorem findings_emptied :
    findings excluded targetName path (emptied listing) =
      findings excluded targetName path listing := by
  induction listing using Listing.induction generalizing path with
  | nil => rfl
  | leaf name entry rest leaf inductionHypothesis =>
      have leafEmptied : entry.emptied.isDirectory = false ∧ entry.emptied.kind = entry.kind := by
        cases entry with
        | directory inner => cases leaf
        | _ => exact ⟨rfl, rfl⟩
      rw [emptied, findings_cons, findings_leaf leafEmptied.1, leafEmptied.2, inductionHypothesis,
        ← findings_leaf leaf, ← findings_cons]
  | directory name inner rest inductionInner inductionRest =>
      rw [emptied, Entry.emptied, findings_cons, findings_directory, inductionInner, inductionRest,
        ← findings_directory, ← findings_cons]

end

end Listing

/-- The path of what is found below a directory is longer than that of the directory. -/
theorem Path.length_lt_foldl_join {path : Path} {names : Location}
    (valid : ∀ name ∈ names, ValidName name) (present : names ≠ []) :
    path.bytes.length < (names.foldl Path.join path).bytes.length := by
  induction names generalizing path with
  | nil => exact absurd rfl present
  | cons name rest inductionHypothesis =>
      obtain ⟨validName, validRest⟩ := List.forall_mem_cons.mp valid
      obtain ⟨between, bytes⟩ := Path.bytes_join path name
      have nonempty := List.length_pos_of_ne_nil validName.nonempty
      have first : path.bytes.length < (path.join name).bytes.length := by
        simp only [bytes, List.length_append]
        omega
      by_cases last : rest = []
      · rw [last]
        exact first
      · exact Nat.lt_trans first (inductionHypothesis validRest last)

namespace Disk

/-- What a survey finds out about its root. -/
def rootFindings (disk : Disk) (root : Path) : List Finding :=
  match disk.inspect .entry root with
  | .error cause => [.skipped ⟨root, .unlistable cause⟩]
  | .ok (.directory _) => []
  | .ok (.link _) =>
      match disk.inspect .target root with
      | .error cause => [.skipped ⟨root, .unlistable cause⟩]
      | .ok _ => [.skipped ⟨root, .notADirectory⟩]
  | .ok _ => [.skipped ⟨root, .notADirectory⟩]

/-- The directory to which a path leads. -/
def listing? (disk : Disk) (path : Path) : Option Listing :=
  match disk.inspect .target path with
  | .ok (.directory listing) => some listing
  | _ => none

variable {disk : Disk} {root : Path}

theorem listing?_eq_some_iff {listing : Listing} :
    disk.listing? root = some listing ↔ disk.inspect .target root = .ok (.directory listing) := by
  unfold listing?
  split
  next inspected => simp [inspected]
  next other =>
    constructor
    · intro impossible
      cases impossible
    · intro inspected
      exact absurd inspected (other listing)

/-- A survey looks at its root, then below the directory to which that leads. -/
theorem findings_eq (excluded : ExcludedNames) (targetName : String) :
    disk.findings root excluded targetName =
      disk.rootFindings root ++
        match disk.listing? root with
        | some listing => Listing.findings excluded (encode targetName) root listing
        | none => [] := by
  unfold findings rootFindings listing?
  cases inspected : disk.inspect .entry root with
  | error cause =>
      cases reached : disk.inspect .target root with
      | error _ => rfl
      | ok entry =>
          rcases inspect_entry_of_target reached with same | ⟨target, linked⟩
          · rw [inspected] at same
            cases same
          · rw [inspected] at linked
            cases linked
  | ok entry =>
      cases entry with
      | link target =>
          cases disk.inspect .target root with
          | error _ => rfl
          | ok reached => cases reached <;> rfl
      | _ =>
          rw [inspect_target_of_entry inspected (by simp)]
          rfl

/-- A root that leads to a directory is skipped only where it is a link. -/
theorem rootFindings_of_listing {listing : Listing} (leads : disk.listing? root = some listing) :
    disk.rootFindings root = [] ∨
      disk.rootFindings root = [.skipped ⟨root, .notADirectory⟩] ∧
        ∃ target, disk.inspect .entry root = .ok (.link target) := by
  have inspected := listing?_eq_some_iff.mp leads
  unfold rootFindings
  rcases inspect_entry_of_target inspected with same | ⟨target, linked⟩
  · exact .inl (by rw [same])
  · exact .inr ⟨by rw [linked, inspected], target, linked⟩

theorem rootFindings_of_no_listing (noDirectory : disk.listing? root = none) :
    ∃ reason, disk.rootFindings root = [.skipped ⟨root, reason⟩] := by
  unfold rootFindings
  cases inspected : disk.inspect .entry root with
  | error cause => exact ⟨_, rfl⟩
  | ok entry =>
      cases entry with
      | directory listing =>
          have leads := listing?_eq_some_iff.mpr (inspect_target_of_entry inspected (by simp))
          rw [noDirectory] at leads
          cases leads
      | link target => cases disk.inspect .target root <;> exact ⟨_, rfl⟩
      | _ => exact ⟨_, rfl⟩

theorem exists_rootFindings_eq (disk : Disk) (root : Path) :
    disk.rootFindings root = [] ∨
      ∃ reason, disk.rootFindings root = [.skipped ⟨root, reason⟩] := by
  cases leads : disk.listing? root with
  | none => exact .inr (rootFindings_of_no_listing leads)
  | some listing => exact (rootFindings_of_listing leads).imp_right fun found => ⟨_, found.1⟩

/-- A survey finds nothing twice. -/
theorem nodup_findings (wellFormed : disk.WellFormed) (excluded : ExcludedNames)
    (targetName : String) : (disk.findings root excluded targetName).Nodup := by
  have nodupRoot : (disk.rootFindings root).Nodup := by
    rcases disk.exists_rootFindings_eq root with found | ⟨reason, found⟩ <;> simp [found]
  rw [findings_eq]
  split
  next listing leads =>
    obtain ⟨top, _, found⟩ := inspect_eq_ok_iff.mp (listing?_eq_some_iff.mp leads)
    have inside : Listing.WellFormed listing := wellFormed.entry_wellFormed found
    refine List.nodup_append.mpr ⟨nodupRoot, Listing.nodup_findings inside, ?_⟩
    intro first atRoot later below same
    obtain ⟨names, _, reached, spelled⟩ := Listing.exists_reaches_of_mem_findings below
    have isRoot : first.path = root := by
      rcases disk.exists_rootFindings_eq root with nothing | ⟨reason, found⟩
      · rw [nothing] at atRoot
        cases atRoot
      · rw [found, List.mem_singleton] at atRoot
        rw [atRoot]
        rfl
    -- What is found below the root has a longer path than the root.
    have longer : root.bytes.length < (names.foldl Path.join root).bytes.length :=
      Path.length_lt_foldl_join (reached.validName inside) reached.ne_nil
    rw [← spelled, ← same, isRoot] at longer
    exact absurd longer (Nat.lt_irrefl _)
  next => rwa [List.append_nil]

variable {first second : Disk}

/-- Where paths lead the same way, a root leads to a directory on both disks or on none. -/
theorem SameWays.listing?_cases (same : first.SameWays second) (root : Path) :
    (first.listing? root = none ∧ second.listing? root = none) ∨
      ∃ location one other, first.listing? root = some one ∧ second.listing? root = some other ∧
        first.entry? location = some (.directory one) ∧
        second.entry? location = some (.directory other) := by
  unfold listing?
  rcases same.inspect_cases .target root with
    ⟨cause, failed, failedToo⟩ | ⟨location, one, other, inspected, inspectedToo, found, foundToo,
      sameKind⟩
  · exact .inl ⟨by rw [failed], by rw [failedToo]⟩
  · rw [inspected, inspectedToo]
    cases one with
    | directory listing =>
        cases other with
        | directory listingToo => exact .inr ⟨location, _, _, rfl, rfl, found, foundToo⟩
        | _ => cases sameKind
    | _ =>
        cases other with
        | directory listingToo => cases sameKind
        | _ => exact .inl ⟨rfl, rfl⟩

theorem SameWays.rootFindings_eq (same : first.SameWays second) (root : Path) :
    first.rootFindings root = second.rootFindings root := by
  unfold rootFindings
  rcases same.inspect_cases .entry root with
    ⟨cause, failed, failedToo⟩ | ⟨_, one, other, inspected, inspectedToo, _, _, sameKind⟩
  · rw [failed, failedToo]
  · rw [inspected, inspectedToo]
    cases one <;> cases other <;> cases sameKind <;> try rfl
    rcases same.inspect_cases .target root with
      ⟨cause, failed, failedToo⟩ | ⟨_, _, _, reached, reachedToo, _⟩
    · rw [failed, failedToo]
    · rw [reached, reachedToo]

theorem SameKinds.findings_eq (same : first.SameKinds second) (wellFormed : first.WellFormed)
    (root : Path) (excluded : ExcludedNames) (targetName : String) :
    first.findings root excluded targetName = second.findings root excluded targetName := by
  rw [Disk.findings_eq, Disk.findings_eq, same.ways.rootFindings_eq]
  rcases same.ways.listing?_cases root with
    ⟨nowhere, nowhereToo⟩ | ⟨location, one, other, leads, leadsToo, found, foundToo⟩
  · rw [nowhere, nowhereToo]
  · have emptied : Listing.emptied one = Listing.emptied other :=
      Listing.emptied_eq_of_sameKinds (wellFormed.entry_wellFormed found)
        (same.entry_sameKinds found foundToo)
    simp only [leads, leadsToo]
    rw [← Listing.findings_emptied, emptied, Listing.findings_emptied]

end Disk

end ImportSuffix
