import ImportSuffix.Proofs.Survey.Candidates

/-!
What a survey finds, read off the tree below its root.

Where every directory that it enters can be listed, a survey collects exactly the files
with the right name below no excluded directory.  Nothing but its root can be skipped.
-/

namespace ImportSuffix

open Text

namespace Listing

section

variable {excluded : ExcludedNames} {name : Bytes} {names : Location} {entry below : Entry}
  {head : Bytes × Entry} {rest inner listing : Listing}

/-- In a tree that a disk can hold, a survey reaches what is there, unless a directory
on the way has an excluded name. -/
theorem reaches_iff_at? (wellFormed : Listing.WellFormed listing) :
    Listing.Reaches excluded listing names entry ↔
      names ≠ [] ∧ (Entry.directory listing).at? names = some entry ∧
        ∀ name ∈ names.dropLast, excluded.contains name = false := by
  constructor
  · intro reached
    induction reached with
    | entry membership =>
        refine ⟨by simp, ?_, by simp⟩
        simp [Entry.at?, wellFormed.lookup_eq_some_iff.mpr membership]
    | @down listing name inner rest entry membership allowed further inductionHypothesis =>
        obtain ⟨nonempty, found, others⟩ :=
          inductionHypothesis (wellFormed.of_mem membership).2
        refine ⟨by simp, ?_, ?_⟩
        · rw [Entry.at?, wellFormed.lookup_eq_some_iff.mpr membership]
          exact found
        · rw [List.dropLast_cons_of_ne_nil nonempty]
          exact List.forall_mem_cons.mpr ⟨allowed, others⟩
  · rintro ⟨nonempty, found, allowed⟩
    induction names generalizing listing with
    | nil => exact absurd rfl nonempty
    | cons name rest inductionHypothesis =>
        obtain ⟨_, first, same, isFirst, further⟩ := Entry.at?_cons_eq_some found
        cases same
        have membership := wellFormed.lookup_eq_some_iff.mp isFirst
        cases rest with
        | nil =>
            rw [Entry.at?_nil, Option.some.injEq] at further
            exact .entry (further ▸ membership)
        | cons next others =>
            obtain ⟨inner, _, rfl, _, _⟩ := Entry.at?_cons_eq_some further
            rw [List.dropLast_cons_of_ne_nil (by simp), List.forall_mem_cons] at allowed
            exact .down membership allowed.1
              (inductionHypothesis (wellFormed.of_mem membership).2 (by simp) further allowed.2)

end

/-- Every directory that a survey enters has a path that can be listed. -/
def Listable (excluded : ExcludedNames) (path : Path) (listing : Listing) : Prop :=
  ∀ names inner, Listing.Reaches excluded listing names (.directory inner) →
    (∀ name ∈ names, excluded.contains name = false) →
    (names.foldl Path.join path).bytes.length < Disk.pathLimit

section

variable {excluded : ExcludedNames} {targetName name : Bytes} {path : Path} {entry : Entry}
  {head : Bytes × Entry} {rest inner listing : Listing}

theorem listable_cons_iff :
    Listable excluded path (head :: rest) ↔
      Listable excluded path [head] ∧ Listable excluded path rest := by
  constructor
  · intro listable
    refine ⟨fun names inner reached => ?_, fun names inner reached => ?_⟩
    · exact listable names inner (reaches_cons_iff.mpr (.inl reached))
    · exact listable names inner (reaches_cons_iff.mpr (.inr reached))
  · rintro ⟨listableFirst, listableRest⟩ names inner reached
    rcases reaches_cons_iff.mp reached with first | later
    · exact listableFirst names inner first
    · exact listableRest names inner later

theorem listable_leaf (leaf : entry.isDirectory = false) :
    Listable excluded path [(name, entry)] := by
  intro names inner reached _
  rcases reaches_singleton_iff.mp reached with ⟨_, rfl⟩ | ⟨_, _, rfl, _⟩ <;> cases leaf

theorem listable_directory_iff :
    Listable excluded path [(name, .directory inner)] ↔
      (excluded.contains name = false →
        (path.join name).bytes.length < Disk.pathLimit ∧
          Listable excluded (path.join name) inner) := by
  constructor
  · intro listable allowed
    refine ⟨listable [name] inner (.entry List.mem_cons_self) (by simpa using allowed), ?_⟩
    intro names below reached others
    exact listable (name :: names) below (.down List.mem_cons_self allowed reached)
      (List.forall_mem_cons.mpr ⟨allowed, others⟩)
  · intro listable names below reached allowed
    rcases reaches_singleton_iff.mp reached with
      ⟨rfl, _⟩ | ⟨_, others, same, rfl, allowedName, further⟩
    · exact (listable (allowed name List.mem_cons_self)).1
    · cases same
      exact (listable allowedName).2 others below further (List.forall_mem_cons.mp allowed).2

/-- Below its root, a survey skips nothing if and only if all that it enters can be listed. -/
theorem skipped_eq_nil_iff (targetName : Bytes) :
    (Listing.findings excluded targetName path listing).filterMap Finding.skipped? = [] ↔
      Listable excluded path listing := by
  induction listing using Listing.induction generalizing path with
  | nil =>
      refine iff_of_true rfl ?_
      intro names inner reached
      cases reached <;> contradiction
  | leaf name entry rest leaf inductionHypothesis =>
      have nothing : (findings excluded targetName path [(name, entry)]).filterMap
          Finding.skipped? = [] := by
        rw [findings_leaf leaf]
        split <;> rfl
      rw [listable_cons_iff, findings_cons, List.filterMap_append, nothing, List.nil_append,
        inductionHypothesis, and_iff_right (listable_leaf leaf)]
  | directory name inner rest inductionInner inductionRest =>
      rw [listable_cons_iff, listable_directory_iff, findings_cons, List.filterMap_append,
        List.append_eq_nil_iff, inductionRest, ← inductionInner, findings_directory]
      refine and_congr_left fun _ => ?_
      cases excluded.contains name with
      | true => simp [Finding.skipped?]
      | false =>
          by_cases long : Disk.pathLimit ≤ (path.join name).bytes.length
          · simp [long, Nat.not_lt.mpr long, Finding.skipped?]
          · simp [long, Nat.lt_of_not_le long]

theorem Listable.listed {names : Location} (listable : Listable excluded path listing)
    (reached : Listing.Reaches excluded listing names entry) : path.Listed names := by
  rintro front more rfl start present
  obtain ⟨inner, reachedFront, allowed⟩ := reached.exists_directory start present
  exact listable front inner reachedFront allowed

end

end Listing

namespace Survey

variable {settings : Settings} {disk : Disk} {listing : Listing}

/-- A root that leads to a directory may be skipped itself, if it is a link. -/
theorem skipped_take_of_directory
    (inspected : disk.inspect .target settings.root = .ok (.directory listing)) :
    ∃ front, front.length ≤ 1 ∧ (take settings disk).skipped = front ++
      (Listing.findings settings.excluded (encode settings.targetName) settings.root
        listing).filterMap Finding.skipped? := by
  have leads := Disk.listing?_eq_some_iff.mpr inspected
  refine ⟨(disk.rootFindings settings.root).filterMap Finding.skipped?, ?_, ?_⟩
  · rcases disk.exists_rootFindings_eq settings.root with found | ⟨reason, found⟩ <;>
      simp [found, Finding.skipped?]
  · simp only [take, ofFindings, Disk.findings_eq, leads, List.filterMap_append]

theorem skipped_take_of_not_directory
    (noDirectory : ∀ listing, disk.inspect .target settings.root ≠ .ok (.directory listing)) :
    ∃ reason, (take settings disk).skipped = [⟨settings.root, reason⟩] := by
  have nowhere : disk.listing? settings.root = none := by
    apply Option.eq_none_iff_forall_ne_some.mpr
    intro listing leads
    exact noDirectory listing (Disk.listing?_eq_some_iff.mp leads)
  obtain ⟨reason, found⟩ := Disk.rootFindings_of_no_listing nowhere
  refine ⟨reason, ?_⟩
  simp [take, ofFindings, Disk.findings_eq, nowhere, found, Finding.skipped?]

theorem candidates_take_of_not_directory
    (noDirectory : ∀ listing, disk.inspect .target settings.root ≠ .ok (.directory listing)) :
    (take settings disk).candidates = [] := by
  rw [candidates_take]
  split
  next listing inspected => exact absurd inspected (noDirectory listing)
  next => rfl

end Survey

/-- No directory that a survey enters below its root has a path too long to be listed. -/
def Settings.Listable (settings : Settings) (disk : Disk) : Prop :=
  ∀ top names inner, disk.locate .target settings.root = .ok top → names ≠ [] →
    disk.entry? (top ++ names) = some (.directory inner) →
    (∀ name ∈ names, settings.excluded.contains name = false) →
    (settings.root.below names).bytes.length < Disk.pathLimit

namespace Survey

variable {settings : Settings} {disk : Disk} {top names : Location} {listing : Listing}
  {entry : Entry}

theorem reaches_iff (wellFormed : disk.WellFormed)
    (found : disk.entry? top = some (.directory listing)) {excluded : ExcludedNames} :
    Listing.Reaches excluded listing names entry ↔
      names ≠ [] ∧ disk.entry? (top ++ names) = some entry ∧
        ∀ name ∈ names.dropLast, excluded.contains name = false := by
  have inside : Listing.WellFormed listing := wellFormed.entry_wellFormed found
  rw [Listing.reaches_iff_at? inside, Disk.entry?, Entry.at?_append, ← Disk.entry?, found]
  rfl

/-- If nothing is left out, everything below the root is reached. -/
theorem reaches_of_entry? (wellFormed : disk.WellFormed)
    (found : disk.entry? top = some (.directory listing)) (present : names ≠ [])
    (there : disk.entry? (top ++ names) = some entry) :
    Listing.Reaches .empty listing names entry :=
  (reaches_iff wellFormed found).mpr ⟨present, there, fun _ _ => rfl⟩

/-- Along the way that a survey takes, a path is joined as it is written. -/
theorem foldl_join_of_reaches (wellFormed : disk.WellFormed)
    (led : disk.locate .target settings.root = .ok top)
    (found : disk.entry? top = some (.directory listing)) {excluded : ExcludedNames}
    (reached : Listing.Reaches excluded listing names entry) :
    names.foldl Path.join settings.root = settings.root.below names :=
  Path.foldl_join_eq_below (Disk.locate_eq_ok_iff.mp led).1.nonempty reached.ne_nil
    (reached.validName (wellFormed.entry_wellFormed found))

/-- A path that is written along one way down from the root is not written along another. -/
theorem eq_of_below_eq (wellFormed : disk.WellFormed)
    (led : disk.locate .target settings.root = .ok top)
    (found : disk.entry? top = some (.directory listing)) {first second : ExcludedNames}
    {others : Location} {other : Entry} (reached : Listing.Reaches first listing names entry)
    (reachedToo : Listing.Reaches second listing others other)
    (same : settings.root.below names = settings.root.below others) : names = others := by
  have inside : Listing.WellFormed listing := wellFormed.entry_wellFormed found
  apply Path.foldl_join_injective (reached.validName inside) (reachedToo.validName inside)
  rw [foldl_join_of_reaches wellFormed led found reached,
    foldl_join_of_reaches wellFormed led found reachedToo, same]

theorem listable_iff (wellFormed : disk.WellFormed)
    (led : disk.locate .target settings.root = .ok top)
    (found : disk.entry? top = some (.directory listing)) :
    settings.Listable disk ↔ Listing.Listable settings.excluded settings.root listing := by
  constructor
  · intro listable names inner reached allowed
    obtain ⟨nonempty, there, _⟩ := (reaches_iff wellFormed found).mp reached
    rw [foldl_join_of_reaches wellFormed led found reached]
    exact listable top names inner led nonempty there allowed
  · intro listable other names inner ledToo nonempty there allowed
    rw [led, Except.ok.injEq] at ledToo
    subst ledToo
    have reached : Listing.Reaches settings.excluded listing names (.directory inner) := by
      refine (reaches_iff wellFormed found).mpr ⟨nonempty, there, ?_⟩
      intro name membership
      exact allowed name (List.dropLast_subset _ membership)
    rw [← foldl_join_of_reaches wellFormed led found reached]
    exact listable names inner reached allowed

/-- A candidate leads to a file, if its path is not too long. -/
theorem exists_content_of_mem_candidates (wellFormed : disk.WellFormed) {path : Path}
    (membership : path ∈ (take settings disk).candidates)
    (short : path.bytes.length < Disk.pathLimit) :
    ∃ location content, disk.locate .target path = .ok location ∧
      disk.content? location = some content := by
  rw [candidates_take] at membership
  split at membership
  next listing inspected =>
    obtain ⟨top, led, found⟩ := Disk.inspect_eq_ok_iff.mp inspected
    obtain ⟨names, content, reached, _, _, rfl⟩ :=
      Listing.mem_candidates_iff_reaches.mp membership
    have inside : Listing.WellFormed listing := wellFormed.entry_wellFormed found
    have passable := (Disk.locate_eq_ok_iff.mp led).1.foldl_join (reached.validName inside) short
    obtain ⟨_, there, _⟩ := (reaches_iff wellFormed found).mp reached
    exact ⟨top ++ names, content, reached.locate inside (by simp) led found passable,
      Disk.content?_eq_some_iff.mpr there⟩
  next => cases membership

/-- The candidates of a survey are the paths of the files that it reaches. -/
theorem mem_candidates_take_iff (wellFormed : disk.WellFormed) (listable : settings.Listable disk)
    (led : disk.locate .target settings.root = .ok top)
    (found : disk.entry? top = some (.directory listing)) {path : Path} :
    path ∈ (take settings disk).candidates ↔
      ∃ names content, Listing.Reaches settings.excluded listing names (.file content) ∧
        names.getLast? = some (encode settings.targetName) ∧
        path = settings.root.below names := by
  have inspected := Disk.inspect_eq_ok_iff.mpr ⟨top, led, found⟩
  rw [candidates_take, inspected]
  constructor
  · intro membership
    obtain ⟨names, content, reached, last, _, spelled⟩ :=
      Listing.mem_candidates_iff_reaches.mp membership
    rw [foldl_join_of_reaches wellFormed led found reached] at spelled
    exact ⟨names, content, reached, last, spelled⟩
  · rintro ⟨names, content, reached, last, rfl⟩
    rw [← foldl_join_of_reaches wellFormed led found reached]
    have listed := ((listable_iff wellFormed led found).mp listable).listed reached
    exact Listing.mem_candidates_iff_reaches.mpr ⟨names, content, reached, last, listed, rfl⟩

/-- Below the directory to which a root leads, there is only one way to an entry. -/
theorem eq_file_of_below_mem_candidates (wellFormed : disk.WellFormed)
    (listable : settings.Listable disk) (led : disk.locate .target settings.root = .ok top)
    (found : disk.entry? top = some (.directory listing)) (present : names ≠ [])
    (there : disk.entry? (top ++ names) = some entry)
    (membership : settings.root.below names ∈ (take settings disk).candidates) :
    ∃ content, entry = .file content := by
  have anyway := reaches_of_entry? wellFormed found present there
  obtain ⟨others, content, reached, _, same⟩ :=
    (mem_candidates_take_iff wellFormed listable led found).mp membership
  have sameNames : names = others := eq_of_below_eq wellFormed led found anyway reached same
  obtain ⟨_, file, _⟩ := (reaches_iff wellFormed found).mp reached
  rw [← sameNames, there, Option.some.injEq] at file
  exact ⟨content, file⟩

/-- What a survey has to find.  If its root leads to a directory, these are the paths of
the regular files with the right name below it, except where a directory between the two
has an excluded name.  If not, there is nothing to find, and the root is skipped. -/
structure Exact (settings : Settings) (disk : Disk) (survey : Survey) : Prop where
  collected : ∀ top listing, disk.locate .target settings.root = .ok top →
    disk.entry? top = some (.directory listing) →
    ∀ path, path ∈ survey.candidates ↔
      ∃ names content, names ≠ [] ∧ disk.entry? (top ++ names) = some (.file content) ∧
        names.getLast? = some (encode settings.targetName) ∧
        (∀ name ∈ names.dropLast, settings.excluded.contains name = false) ∧
        path = settings.root.below names
  once : survey.candidates.Nodup
  filesOnly : ∀ top listing, disk.locate .target settings.root = .ok top →
    disk.entry? top = some (.directory listing) →
    ∀ names entry, names ≠ [] → disk.entry? (top ++ names) = some entry →
      (∀ content, entry ≠ .file content) → settings.root.below names ∉ survey.candidates
  nothing : (∀ top listing, disk.locate .target settings.root = .ok top →
      disk.entry? top ≠ some (.directory listing)) →
    survey.candidates = [] ∧ ∃ reason, survey.skipped = [⟨settings.root, reason⟩]
  skipped : survey.skipped.length ≤ 1

theorem take_exact (wellFormed : disk.WellFormed) (listable : settings.Listable disk) :
    (take settings disk).Exact settings disk := by
  refine ⟨?_, nodup_candidates wellFormed, ?_, ?_, ?_⟩
  · intro top listing led found path
    rw [mem_candidates_take_iff wellFormed listable led found]
    simp only [reaches_iff wellFormed found]
    constructor
    · rintro ⟨names, content, ⟨present, there, allowed⟩, last, spelled⟩
      exact ⟨names, content, present, there, last, allowed, spelled⟩
    · rintro ⟨names, content, present, there, last, allowed, spelled⟩
      exact ⟨names, content, ⟨present, there, allowed⟩, last, spelled⟩
  · intro top listing led found names entry present there noFile membership
    obtain ⟨content, file⟩ :=
      eq_file_of_below_mem_candidates wellFormed listable led found present there membership
    exact noFile content file
  · intro noDirectory
    have notInspected : ∀ listing,
        disk.inspect .target settings.root ≠ .ok (.directory listing) := by
      intro listing inspected
      obtain ⟨top, led, found⟩ := Disk.inspect_eq_ok_iff.mp inspected
      exact noDirectory top listing led found
    exact ⟨candidates_take_of_not_directory notInspected,
      skipped_take_of_not_directory notInspected⟩
  · by_cases leads : ∃ listing, disk.inspect .target settings.root = .ok (.directory listing)
    · obtain ⟨listing, inspected⟩ := leads
      obtain ⟨top, led, found⟩ := Disk.inspect_eq_ok_iff.mp inspected
      have nothing := (Listing.skipped_eq_nil_iff (encode settings.targetName)).mpr
        ((listable_iff wellFormed led found).mp listable)
      obtain ⟨front, short, skipped⟩ := skipped_take_of_directory inspected
      rw [skipped, nothing, List.append_nil]
      exact short
    · obtain ⟨reason, skipped⟩ := skipped_take_of_not_directory (not_exists.mp leads)
      rw [skipped]
      exact Nat.le_refl 1

/-- A link to a directory, in which the right name stands for a directory, a link and a
pipe besides two files, one of which is in a directory to be left out. -/
def linkedDisk : Disk :=
  let file : Bytes × Entry := (encode "index.ts", .file [])
  let listing : Listing :=
    [(encode "dist", .directory [file]),
      (encode "src", .directory [file, (encode "dist", .pipe)]),
      (encode "lib", .directory [(encode "index.ts", .link (.ofText "../src/index.ts"))]),
      (encode "pipes", .directory [(encode "index.ts", .pipe)]),
      (encode "index.ts", .directory [])]
  ⟨.directory [(encode "packages", .directory listing),
    (encode "dist", .link (.ofText "packages"))], []⟩

def linkedSettings : Settings :=
  { Settings.ofRoot (.ofText "dist") with excluded := .ofList ["dist"] }

theorem take_exact_linked :
    linkedDisk.WellFormed ∧ linkedSettings.Listable linkedDisk ∧
      (take linkedSettings linkedDisk).candidates = [.ofText "dist/src/index.ts"] ∧
      (take linkedSettings linkedDisk).skipped = [⟨.ofText "dist", .notADirectory⟩] ∧
      (take linkedSettings linkedDisk).Exact linkedSettings linkedDisk := by
  have wellFormed : linkedDisk.WellFormed := by decide +kernel
  have led : linkedDisk.locate .target linkedSettings.root = .ok [encode "packages"] := by
    decide +kernel
  have listable : linkedSettings.Listable linkedDisk := by
    apply (listable_iff wellFormed led rfl).mpr
    apply (Listing.skipped_eq_nil_iff (encode linkedSettings.targetName)).mp
    decide +kernel
  exact ⟨wellFormed, listable, by decide +kernel, by decide +kernel,
    take_exact wellFormed listable⟩

end Survey

end ImportSuffix
