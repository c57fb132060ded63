import ImportSuffix.Proofs.Settings.OrderedSet
import ImportSuffix.Proofs.Survey.Candidates

/-!
Surveys that exclude different names.

Of the names to exclude, only the set counts.  What is found under two sets together is what is
found under each of them: a file that one set hides may be hidden by another directory than the
one for which the other set hides it.
-/

namespace ImportSuffix

open Text

/-- What two lists have in common, part by part. -/
theorem filter_mem_append {Element : Type} [DecidableEq Element]
    {first second firstRest secondRest : List Element}
    (apart : ∀ element ∈ first, element ∉ secondRest)
    (apartToo : ∀ element ∈ second, element ∉ firstRest) :
    (first ++ firstRest).filter (· ∈ second ++ secondRest) =
      first.filter (· ∈ second) ++ firstRest.filter (· ∈ secondRest) := by
  rw [List.filter_append]
  congr 1
  · apply List.filter_congr
    intro element membership
    simp [apart element membership]
  · apply List.filter_congr
    intro element membership
    have absent : element ∉ second := fun inSecond => apartToo element inSecond membership
    simp [absent]

namespace Listing

variable {first second union : ExcludedNames} {targetName name : Bytes} {path : Path}
  {entry : Entry} {rest listing : Listing}

/-- Which names are excluded is all that a survey asks. -/
theorem findings_congr (same : ∀ name, first.contains name = second.contains name) :
    findings first targetName path listing = findings second targetName path listing := by
  induction listing using Listing.induction generalizing path with
  | nil => rfl
  | leaf name entry rest leaf inductionHypothesis =>
      rw [findings_cons, findings_leaf leaf, inductionHypothesis, ← findings_leaf leaf,
        ← findings_cons]
  | directory name inner rest inductionInner inductionRest =>
      rw [findings_cons, findings_directory, same, inductionInner, inductionRest,
        ← findings_directory, ← findings_cons]

theorem candidates_apart (wellFormed : Listing.WellFormed ((name, entry) :: rest)) :
    ∀ found ∈ candidates first targetName path [(name, entry)],
      found ∉ candidates second targetName path rest := by
  intro found membership later
  exact findings_apart wellFormed _ (mem_candidates_iff.mp membership) _
    (mem_candidates_iff.mp later) rfl

theorem filter_candidates_cons (wellFormed : Listing.WellFormed ((name, entry) :: rest)) :
    (candidates first targetName path ((name, entry) :: rest)).filter
        (· ∈ candidates second targetName path ((name, entry) :: rest)) =
      (candidates first targetName path [(name, entry)]).filter
          (· ∈ candidates second targetName path [(name, entry)]) ++
        (candidates first targetName path rest).filter
          (· ∈ candidates second targetName path rest) := by
  rw [@candidates_cons first, @candidates_cons second,
    filter_mem_append (candidates_apart wellFormed) (candidates_apart wellFormed)]

/-- Under two sets of names together, a survey finds what it finds under both. -/
theorem candidates_union (wellFormed : Listing.WellFormed listing)
    (both : ∀ name, union.contains name = (first.contains name || second.contains name)) :
    candidates union targetName path listing =
      (candidates first targetName path listing).filter
        (· ∈ candidates second targetName path listing) := by
  induction listing using Listing.induction generalizing path with
  | nil => rfl
  | leaf name entry rest leaf inductionHypothesis =>
      rw [candidates_cons, filter_candidates_cons wellFormed,
        inductionHypothesis wellFormed.2.2.2]
      congr 1
      simp only [candidates_leaf leaf]
      split <;> simp
  | directory name inner rest inductionInner inductionRest =>
      rw [candidates_cons, filter_candidates_cons wellFormed, inductionRest wellFormed.2.2.2]
      congr 1
      simp only [candidates_directory, both]
      -- A directory that either set leaves out has no candidates under the union.
      by_cases short : (path.join name).bytes.length < Disk.pathLimit
      · cases first.contains name <;> cases second.contains name <;>
          simp [short, inductionInner wellFormed.2.2.1]
      · simp [short]

end Listing

/-- The same settings with other directories to leave out. -/
def Settings.excluding (settings : Settings) (excluded : ExcludedNames) : Settings :=
  { settings with excluded }

namespace Survey

variable {disk : Disk} {first second union : ExcludedNames}

theorem take_excluding_congr (settings : Settings) (disk : Disk)
    (same : ∀ name, first.contains name = second.contains name) :
    take (settings.excluding first) disk = take (settings.excluding second) disk := by
  simp only [take, Settings.excluding, Disk.findings_eq, Listing.findings_congr same]

theorem candidates_excluding_union (wellFormed : disk.WellFormed) (settings : Settings)
    (both : ∀ name, union.contains name = (first.contains name || second.contains name)) :
    (take (settings.excluding union) disk).candidates =
      (take (settings.excluding first) disk).candidates.filter
        (· ∈ (take (settings.excluding second) disk).candidates) := by
  simp only [candidates_take, Settings.excluding]
  split
  next listing inspected =>
    obtain ⟨top, _, found⟩ := Disk.inspect_eq_ok_iff.mp inspected
    exact Listing.candidates_union (wellFormed.entry_wellFormed found) both
  next => rfl

/-- What is left out under two lists of names is left out under the first or under the second
of them.  More names never let a survey find more, and it does not matter in which order or
how often they are given. -/
theorem candidates_excluding (wellFormed : disk.WellFormed) (settings : Settings)
    (first second : List String) :
    (∀ path, path ∈ (take (settings.excluding (.ofList (first ++ second))) disk).candidates ↔
      path ∈ (take (settings.excluding (.ofList first)) disk).candidates ∧
        path ∈ (take (settings.excluding (.ofList second)) disk).candidates) ∧
    (first ⊆ second →
      (take (settings.excluding (.ofList second)) disk).candidates.Sublist
        (take (settings.excluding (.ofList first)) disk).candidates) ∧
    ((∀ name, name ∈ first ↔ name ∈ second) →
      take (settings.excluding (.ofList first)) disk =
        take (settings.excluding (.ofList second)) disk) ∧
    ∀ one other : ExcludedNames, (one == other) = true →
      take (settings.excluding one) disk = take (settings.excluding other) disk := by
  refine ⟨?_, ?_, ?_, ?_⟩
  · intro path
    rw [candidates_excluding_union wellFormed settings
      (ExcludedNames.contains_ofList_append first second), List.mem_filter, decide_eq_true_iff]
  · intro subset
    have absorbed : ∀ name, (ExcludedNames.ofList second).contains name =
        ((ExcludedNames.ofList first).contains name ||
          (ExcludedNames.ofList second).contains name) := by
      intro name
      rw [← ExcludedNames.contains_ofList_append]
      apply ExcludedNames.contains_congr
      intro member
      rw [ExcludedNames.mem_ofList, ExcludedNames.mem_ofList, List.mem_append]
      exact ⟨.inr, fun either => either.elim (@subset member) id⟩
    rw [candidates_excluding_union wellFormed settings absorbed]
    exact List.filter_sublist
  · intro same
    apply take_excluding_congr
    apply ExcludedNames.contains_congr
    intro member
    rw [ExcludedNames.mem_ofList, ExcludedNames.mem_ofList, same]
  · intro one other equal
    exact take_excluding_congr settings disk
      (ExcludedNames.contains_congr (ExcludedNames.mem_iff_of_beq equal))

/-- Directories of two names, each with one of the other name inside. -/
def crossedDisk : Disk :=
  let file : Bytes × Entry := (encode "index.ts", .file [])
  let listing : Listing :=
    [(encode "build", .directory [file, (encode "dist", .directory [file])]),
      (encode "dist", .directory [(encode "build", .directory [file]), file]), file]
  ⟨.directory [(encode "packages", .directory listing)], []⟩

theorem candidates_excluding_crossed :
    let settings := Settings.ofRoot (.ofText "packages")
    let found names := (take (settings.excluding (.ofList names)) crossedDisk).candidates
    crossedDisk.WellFormed ∧
      found ["build"] = [.ofText "packages/dist/index.ts", .ofText "packages/index.ts"] ∧
      found ["dist"] = [.ofText "packages/build/index.ts", .ofText "packages/index.ts"] ∧
      found ["build", "dist"] = [.ofText "packages/index.ts"] ∧
      (∀ path, path ∈ found ["build", "dist"] ↔ path ∈ found ["build"] ∧ path ∈ found ["dist"]) ∧
      found ["dist", "build", "dist"] = found ["build", "dist"] := by
  intro settings found
  have wellFormed : crossedDisk.WellFormed := by decide +kernel
  refine ⟨wellFormed, by decide +kernel, by decide +kernel, by decide +kernel, ?_, ?_⟩
  · exact (candidates_excluding wellFormed settings ["build"] ["dist"]).1
  · have same : ∀ name, name ∈ ["dist", "build", "dist"] ↔ name ∈ ["build", "dist"] := by
      simp [or_comm]
    exact congrArg candidates
      ((candidates_excluding wellFormed settings ["dist", "build", "dist"] ["build", "dist"]).2.2.1
        same)

end Survey

end ImportSuffix
