import ImportSuffix.Proofs.Disk.Observation
import ImportSuffix.Proofs.Disk.WellFormed

/-!
Trees that list their entries in another order.

A directory may list its entries in any order, and so may every directory below it.  What
there is at a location does not depend on that, except for the order in which a directory at
that location lists its own entries.
-/

namespace ImportSuffix

open Text

/-- Two listings of the same entries, in any order, here and in every directory below. -/
inductive Listing.Reordered : Listing → Listing → Prop where
  | nil : Reordered [] []
  | cons {head rest others} :
      Reordered rest others → Reordered (head :: rest) (head :: others)
  | inside {name inner other rest} :
      Reordered inner other →
      Reordered ((name, .directory inner) :: rest) ((name, .directory other) :: rest)
  | swap {first second rest} :
      Reordered (first :: second :: rest) (second :: first :: rest)
  | trans {first between last} :
      Reordered first between → Reordered between last → Reordered first last

/-- Two entries that are the same up to the order of listings. -/
inductive Entry.Reordered : Entry → Entry → Prop where
  | same {entry} : Reordered entry entry
  | directory {listing other} :
      Listing.Reordered listing other → Reordered (.directory listing) (.directory other)

theorem Entry.Reordered.trans {first between last : Entry} (front : first.Reordered between)
    (back : between.Reordered last) : first.Reordered last := by
  cases front with
  | same => exact back
  | directory within =>
      cases back with
      | same => exact .directory within
      | directory withinToo => exact .directory (within.trans withinToo)

namespace Listing.Reordered

variable {first second : Listing}

theorem of_perm (perm : first.Perm second) : Listing.Reordered first second := by
  induction perm with
  | nil => exact .nil
  | cons head _ inductionHypothesis => exact .cons inductionHypothesis
  | swap => exact .swap
  | trans _ _ front back => exact .trans front back

theorem perm_names (reordered : Listing.Reordered first second) :
    (first.map Prod.fst).Perm (second.map Prod.fst) := by
  induction reordered with
  | nil => exact .nil
  | cons _ inductionHypothesis => exact inductionHypothesis.cons _
  | inside => exact .refl _
  | swap => exact .swap _ _ _
  | trans _ _ front back => exact front.trans back

theorem wellFormed (reordered : Listing.Reordered first second)
    (wellFormed : Listing.WellFormed first) : Listing.WellFormed second := by
  induction reordered with
  | nil => exact wellFormed
  | cons reordered inductionHypothesis =>
      obtain ⟨valid, absent, below, wellFormedRest⟩ := wellFormed
      refine ⟨valid, ?_, below, inductionHypothesis wellFormedRest⟩
      rwa [← reordered.perm_names.mem_iff]
  | inside _ inductionHypothesis =>
      obtain ⟨valid, absent, below, wellFormedRest⟩ := wellFormed
      exact ⟨valid, absent, inductionHypothesis below, wellFormedRest⟩
  | swap =>
      obtain ⟨valid, absent, below, validNext, absentNext, belowNext, wellFormedRest⟩ := wellFormed
      rw [List.map_cons, List.mem_cons, not_or] at absent
      refine ⟨validNext, ?_, belowNext, valid, absent.2, below, wellFormedRest⟩
      rw [List.map_cons, List.mem_cons, not_or]
      exact ⟨Ne.symm absent.1, absentNext⟩
  | trans _ _ front back => exact back (front wellFormed)

theorem symm (reordered : Listing.Reordered first second) : Listing.Reordered second first := by
  induction reordered with
  | nil => exact .nil
  | cons _ inductionHypothesis => exact .cons inductionHypothesis
  | inside _ inductionHypothesis => exact .inside inductionHypothesis
  | swap => exact .swap
  | trans _ _ front back => exact .trans back front

/-- What one listing holds, the other one holds under the same name, up to reordering. -/
theorem exists_mem (reordered : Listing.Reordered first second) {name : Bytes} {entry : Entry}
    (membership : (name, entry) ∈ first) :
    ∃ other, (name, other) ∈ second ∧ entry.Reordered other := by
  induction reordered generalizing entry with
  | nil => cases membership
  | cons _ inductionHypothesis =>
      rcases List.mem_cons.mp membership with rfl | later
      · exact ⟨entry, List.mem_cons_self, .same⟩
      · obtain ⟨other, among, related⟩ := inductionHypothesis later
        exact ⟨other, List.mem_cons_of_mem _ among, related⟩
  | @inside _ _ other _ within _ =>
      rcases List.mem_cons.mp membership with isHead | later
      · cases isHead
        exact ⟨.directory other, List.mem_cons_self, .directory within⟩
      · exact ⟨entry, List.mem_cons_of_mem _ later, .same⟩
  | swap => exact ⟨entry, (List.Perm.swap _ _ _).mem_iff.mp membership, .same⟩
  | trans _ _ inductionFront inductionBack =>
      obtain ⟨between, among, related⟩ := inductionFront membership
      obtain ⟨other, amongToo, relatedToo⟩ := inductionBack among
      exact ⟨other, amongToo, related.trans relatedToo⟩

end Listing.Reordered

namespace Entry.Reordered

variable {first second : Entry}

theorem symm (reordered : first.Reordered second) : second.Reordered first := by
  cases reordered with
  | same => exact .same
  | directory within => exact .directory within.symm

theorem wellFormed (reordered : first.Reordered second) (wellFormed : first.WellFormed) :
    second.WellFormed := by
  cases reordered with
  | same => exact wellFormed
  | directory within => exact within.wellFormed wellFormed

theorem unlisted_kind (reordered : first.Reordered second) :
    first.kind.unlisted = second.kind.unlisted := by
  cases reordered <;> rfl

theorem content? (reordered : first.Reordered second) : first.content? = second.content? := by
  cases reordered <;> rfl

theorem exists_at? (reordered : first.Reordered second) (wellFormed : first.WellFormed)
    {location : Location} {entry : Entry} (found : first.at? location = some entry) :
    ∃ other, second.at? location = some other ∧ entry.Reordered other := by
  induction location generalizing first second with
  | nil =>
      rw [at?_nil, Option.some.injEq] at found
      exact ⟨second, at?_nil second, found ▸ reordered⟩
  | cons name rest inductionHypothesis =>
      obtain ⟨listing, below, rfl, isBelow, further⟩ := at?_cons_eq_some found
      cases reordered with
      | same => exact ⟨entry, found, .same⟩
      | @directory _ changed within =>
          have inside : Listing.WellFormed listing := wellFormed
          have insideToo : Listing.WellFormed changed := within.wellFormed wellFormed
          have membership := inside.lookup_eq_some_iff.mp isBelow
          obtain ⟨next, among, related⟩ := within.exists_mem membership
          obtain ⟨other, there, relatedThere⟩ :=
            inductionHypothesis related (inside.of_mem membership).2 further
          refine ⟨other, ?_, relatedThere⟩
          rw [Entry.at?, insideToo.lookup_eq_some_iff.mpr among]
          exact there

end Entry.Reordered

namespace Disk

/-- Two disks that are the same up to the order of listings. -/
structure Reordered (first second : Disk) : Prop where
  workingDirectory : first.workingDirectory = second.workingDirectory
  root : first.root.Reordered second.root

namespace Reordered

variable {first second : Disk}

theorem symm (reordered : first.Reordered second) : second.Reordered first :=
  ⟨reordered.workingDirectory.symm, reordered.root.symm⟩

theorem wellFormed (reordered : first.Reordered second) (wellFormed : first.WellFormed) :
    second.WellFormed :=
  reordered.root.wellFormed wellFormed

/-- At each location there are entries that are the same up to reordering, or none. -/
theorem entry?_cases (reordered : first.Reordered second) (wellFormed : first.WellFormed)
    (location : Location) :
    (first.entry? location = none ∧ second.entry? location = none) ∨
      ∃ one other, first.entry? location = some one ∧ second.entry? location = some other ∧
        one.Reordered other := by
  cases found : first.entry? location with
  | some one =>
      obtain ⟨other, foundToo, related⟩ := reordered.root.exists_at? wellFormed found
      exact .inr ⟨one, other, rfl, foundToo, related⟩
  | none =>
      cases foundToo : second.entry? location with
      | none => exact .inl ⟨rfl, rfl⟩
      | some other =>
          obtain ⟨one, there, _⟩ :=
            reordered.symm.root.exists_at? (reordered.wellFormed wellFormed) foundToo
          rw [← Disk.entry?, found] at there
          cases there

/-- The order of listings makes no difference to where paths lead. -/
theorem ways (reordered : first.Reordered second) (wellFormed : first.WellFormed) :
    first.SameWays second := by
  refine ⟨reordered.workingDirectory, fun location => ?_⟩
  unfold kind?
  rcases reordered.entry?_cases wellFormed location with
    ⟨absent, absentToo⟩ | ⟨one, other, found, foundToo, related⟩
  · rw [absent, absentToo]
  · simp [found, foundToo, related.unlisted_kind]

theorem content?_eq (reordered : first.Reordered second) (wellFormed : first.WellFormed)
    (location : Location) : first.content? location = second.content? location := by
  unfold content?
  rcases reordered.entry?_cases wellFormed location with
    ⟨absent, absentToo⟩ | ⟨one, other, found, foundToo, related⟩
  · rw [absent, absentToo]
  · simp [found, foundToo, related.content?]

end Reordered

end Disk

end ImportSuffix
