import ImportSuffix.Proofs.Run.Effect
import ImportSuffix.Proofs.Run.Forecast
import ImportSuffix.Proofs.Survey.Skipped

/-!
What a skipped directory means to a run.

A run warns of every directory that it skips.  It finds and changes nothing below such a
directory, and passes through no link, unless its root is itself a link to a directory.
-/

namespace ImportSuffix

open Text Specifier

/-- Nothing below a skipped directory is a candidate or gets another content, and neither the
candidates nor anything between them and the root is a link, nor is the root. -/
structure SkipsWholly (settings : Settings) (disk : Disk) : Prop where
  candidates : ∀ candidate ∈ (Survey.take settings disk).candidates,
    ∀ skipped ∈ (Survey.take settings disk).skipped, ¬candidate.IsBelow skipped.path
  contents : ∀ skipped ∈ (Survey.take settings disk).skipped, ∀ top names,
    disk.locate .target skipped.path = .ok top →
      (run settings disk).disk.content? (top ++ names) = disk.content? (top ++ names)
  unlinked : ∀ candidate ∈ (Survey.take settings disk).candidates, ∀ place,
    candidate = place ∨ candidate.IsBelow place →
    place = settings.root ∨ place.IsBelow settings.root →
      ∀ target, disk.inspect .entry place ≠ .ok (.link target)

section

variable {settings : Settings} {disk : Disk}

/-- Whatever ends a run, it has changed nothing but candidates. -/
theorem exists_candidate_of_content?_ne (wellFormed : disk.WellFormed) {location : Location}
    (differs : (run settings disk).disk.content? location ≠ disk.content? location) :
    ∃ candidate ∈ (Survey.take settings disk).candidates,
      disk.locate .target candidate = .ok location := by
  by_contra away
  apply differs
  rw [run_disk]
  apply (settings.updating_foretold wellFormed).others
  intro candidate among led
  exact away ⟨candidate, Disk.mem_of_mem_legible among, led⟩

theorem skipsWholly_of_real (wellFormed : disk.WellFormed)
    (real : ∀ target, disk.inspect .entry settings.root ≠ .ok (.link target)) :
    SkipsWholly settings disk := by
  refine ⟨?_, ?_, ?_⟩
  · intro candidate among skipped beside below
    obtain ⟨_, target, linked⟩ := Survey.linked_of_isBelow wellFormed among beside below
    exact real target linked
  · intro skipped beside top names led
    by_contra differs
    obtain ⟨candidate, among, _⟩ := exists_candidate_of_content?_ne wellFormed differs
    obtain ⟨_, listing, _, _, leads, _⟩ := Survey.exists_listing_of_mem_candidates among
    rcases Survey.mem_skipped_take_cases leads beside with ⟨_, target, linked⟩ | deeper
    · exact real target linked
    · -- A path that is too long to be listed leads nowhere.
      have short := (Disk.locate_eq_ok_iff.mp led).1.short
      exact Nat.not_lt.mpr (Listing.pathLimit_le_of_mem_findings deeper) short
  · intro candidate among place on below target
    rcases below with rfl | below
    · exact real target
    · exact Survey.real_of_mem_candidates wellFormed among on below target

theorem skipsWholly_of_no_candidates (wellFormed : disk.WellFormed)
    (none : (Survey.take settings disk).candidates = []) : SkipsWholly settings disk := by
  refine ⟨by simp [none], ?_, by simp [none]⟩
  intro skipped _ top names _
  by_contra differs
  obtain ⟨candidate, among, _⟩ := exists_candidate_of_content?_ne wellFormed differs
  rw [none] at among
  cases among

/-- A run keeps away from what it skips, unless it finds candidates over a root that is a link.
They are then below that root, and below nothing else that is skipped. -/
theorem skipsWholly_iff (wellFormed : disk.WellFormed) :
    (SkipsWholly settings disk ↔
      (∀ target, disk.inspect .entry settings.root ≠ .ok (.link target)) ∨
        (Survey.take settings disk).candidates = []) ∧
    ∀ candidate ∈ (Survey.take settings disk).candidates,
      ∀ skipped ∈ (Survey.take settings disk).skipped,
        (candidate.IsBelow skipped.path ↔ skipped = ⟨settings.root, .notADirectory⟩) := by
  refine ⟨⟨?_, ?_⟩, ?_⟩
  · intro wholly
    by_cases real : ∀ target, disk.inspect .entry settings.root ≠ .ok (.link target)
    · exact .inl real
    · refine .inr (List.eq_nil_iff_forall_not_mem.mpr ?_)
      intro candidate among
      apply real
      exact wholly.unlinked candidate among settings.root
        (.inr (Survey.isBelow_root_of_mem_candidates wellFormed among)) (.inl rfl)
  · rintro (real | none)
    · exact skipsWholly_of_real wellFormed real
    · exact skipsWholly_of_no_candidates wellFormed none
  · intro candidate among skipped beside
    constructor
    · exact fun below => (Survey.linked_of_isBelow wellFormed among beside below).1
    · rintro rfl
      exact Survey.isBelow_root_of_mem_candidates wellFormed among

end

/-- A directory, and directories within each other below it.  Their names are as long as names
can be, and a file with the right name stands in the innermost one. -/
def nested : (depth : Nat) → Entry
  | 0 => .directory [(encode "index.ts", .file (encode "from './a'"))]
  | depth + 1 => .directory [(List.replicate Disk.nameLimit 0x61, nested depth)]

/-- A directory with a file to update, besides directories too deep to be listed, and a link
that leads to it. -/
def shortcutDisk : Disk :=
  let listing : Listing :=
    [(encode "index.ts", .file (encode "from './a'")), (encode "deep", nested 16)]
  ⟨.directory [(encode "real", .directory listing),
    (encode "shortcut", .link (.ofText "real"))], []⟩

theorem wellFormed_shortcutDisk : shortcutDisk.WellFormed := by
  decide +kernel

theorem skipsWholly_iff_real :
    shortcutDisk.WellFormed ∧
      (Survey.take (.ofRoot (.ofText "real")) shortcutDisk).candidates =
        [.ofText "real/index.ts"] ∧
      (Survey.take (.ofRoot (.ofText "real")) shortcutDisk).skipped.length = 1 ∧
      (∀ target, shortcutDisk.inspect .entry (.ofText "real") ≠ .ok (.link target)) ∧
      SkipsWholly (.ofRoot (.ofText "real")) shortcutDisk := by
  have real : ∀ target, shortcutDisk.inspect .entry (.ofText "real") ≠ .ok (.link target) := by
    intro target linked
    cases linked
  refine ⟨wellFormed_shortcutDisk, by decide +kernel, by decide +kernel, real, ?_⟩
  exact (skipsWholly_iff wellFormed_shortcutDisk).1.mpr (.inl real)

/-- Over the link, the survey skips the root, finds a candidate below it all the same, and
the run rewrites it. -/
theorem not_skipsWholly_shortcut :
    shortcutDisk.WellFormed ∧
      (∃ candidate ∈ (Survey.take (.ofRoot (.ofText "shortcut")) shortcutDisk).candidates,
        ∃ skipped ∈ (Survey.take (.ofRoot (.ofText "shortcut")) shortcutDisk).skipped,
          candidate.IsBelow skipped.path) ∧
      (run (.ofRoot (.ofText "shortcut")) shortcutDisk).disk.content?
          [encode "real", encode "index.ts"] = some (encode "from './a.js'") ∧
      ¬SkipsWholly (.ofRoot (.ofText "shortcut")) shortcutDisk := by
  have among : (.ofText "shortcut/index.ts" : Path) ∈
      (Survey.take (.ofRoot (.ofText "shortcut")) shortcutDisk).candidates := by decide +kernel
  have beside : (⟨.ofText "shortcut", .notADirectory⟩ : SkippedDirectory) ∈
      (Survey.take (.ofRoot (.ofText "shortcut")) shortcutDisk).skipped := by decide +kernel
  have below : (.ofText "shortcut/index.ts" : Path).IsBelow (.ofText "shortcut") :=
    ⟨[encode "index.ts"], by decide +kernel, by decide +kernel, by decide +kernel⟩
  refine ⟨wellFormed_shortcutDisk, ⟨_, among, _, beside, below⟩, by decide +kernel, ?_⟩
  intro wholly
  exact wholly.candidates _ among _ beside below

end ImportSuffix
