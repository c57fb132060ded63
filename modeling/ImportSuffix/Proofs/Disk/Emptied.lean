import ImportSuffix.Proofs.Disk.Observation
import ImportSuffix.Proofs.Disk.WellFormed

/-!
Trees without the contents of their files.

Where two disks have the same kinds of entries everywhere, their trees are the same but for
these contents.
-/

namespace ImportSuffix

open Text

mutual

/-- The entry with all files emptied. -/
def Entry.emptied : Entry → Entry
  | .file _ => .file []
  | .directory listing => .directory (Listing.emptied listing)
  | .link target => .link target
  | .pipe => .pipe

def Listing.emptied : Listing → Listing
  | [] => []
  | (name, entry) :: rest => (name, entry.emptied) :: Listing.emptied rest

end

theorem Entry.emptied_eq_of_kind_eq {first second : Entry} (leaf : first.isDirectory = false)
    (same : first.kind = second.kind) : first.emptied = second.emptied := by
  cases first with
  | directory listing => cases leaf
  | _ => cases second <;> simp_all [Entry.kind, Entry.emptied]

namespace Listing

theorem map_fst_emptied (listing : Listing) :
    (emptied listing).map Prod.fst = listing.map Prod.fst := by
  induction listing with
  | nil => rfl
  | cons head rest inductionHypothesis => simp [emptied, inductionHypothesis]

theorem wellFormed_emptied_iff {listing : Listing} :
    (emptied listing).WellFormed ↔ listing.WellFormed := by
  induction listing using Listing.induction with
  | nil => exact Iff.rfl
  | leaf name entry rest leaf inductionHypothesis =>
      have emptied : entry.emptied.WellFormed ↔ entry.WellFormed := by
        cases entry with
        | directory inner => cases leaf
        | _ => exact Iff.rfl
      simp only [Listing.emptied, Listing.WellFormed, map_fst_emptied, emptied, inductionHypothesis]
  | directory name inner rest inductionInner inductionRest =>
      simp only [Listing.emptied, Listing.WellFormed, map_fst_emptied, Entry.emptied,
        Entry.WellFormed, inductionInner, inductionRest]

end Listing

/-- Two entries with the same kinds of entries below them. -/
def Entry.SameKinds (first second : Entry) : Prop :=
  ∀ location, (first.at? location).map Entry.kind = (second.at? location).map Entry.kind

namespace Listing

theorem lookup_eq_none_of_not_mem {name : Bytes} {listing : Listing}
    (absent : name ∉ listing.map Prod.fst) : listing.lookup name = none := by
  apply List.lookup_eq_none_iff.mpr
  intro head membership
  rw [bne_iff_ne]
  rintro rfl
  exact absent (List.mem_map_of_mem membership)

section

variable {name : Bytes} {entry : Entry} {first second rest : Listing}

/-- Listings of the same kinds begin with the same name, with the same kinds below it and
behind it. -/
theorem exists_cons_of_sameKinds (absent : name ∉ rest.map Prod.fst)
    (same : (Entry.directory ((name, entry) :: rest)).SameKinds (.directory second)) :
    ∃ other others, second = (name, other) :: others ∧ entry.SameKinds other ∧
      (Entry.directory rest).SameKinds (.directory others) := by
  have names : name :: rest.map Prod.fst = second.map Prod.fst := by
    simpa [Entry.kind] using same []
  obtain _ | ⟨⟨head, other⟩, others⟩ := second
  · cases names
  · obtain ⟨rfl, sameNames⟩ := List.cons.inj names
    refine ⟨other, others, rfl, ?_, ?_⟩
    · intro location
      simpa [Entry.at?] using same (name :: location)
    · rintro (_ | ⟨head, location⟩)
      · simp [Entry.kind, sameNames]
      · by_cases isName : head = name
        · subst isName
          simp [Entry.at?, lookup_eq_none_of_not_mem absent,
            lookup_eq_none_of_not_mem (sameNames ▸ absent)]
        · simpa [Entry.at?, List.lookup_cons, beq_false_of_ne isName] using
            same (head :: location)

theorem emptied_eq_of_sameKinds (wellFormed : Listing.WellFormed first)
    (same : (Entry.directory first).SameKinds (.directory second)) :
    emptied first = emptied second := by
  induction first using Listing.induction generalizing second with
  | nil =>
      have names : [] = second.map Prod.fst := by simpa [Entry.kind] using same []
      rw [List.map_eq_nil_iff.mp names.symm]
  | leaf name entry rest leaf inductionHypothesis =>
      obtain ⟨_, absent, _, wellFormedRest⟩ := wellFormed
      obtain ⟨other, others, rfl, sameBelow, sameRest⟩ := exists_cons_of_sameKinds absent same
      have sameKind : entry.kind = other.kind := by simpa using sameBelow []
      rw [emptied, emptied, Entry.emptied_eq_of_kind_eq leaf sameKind,
        inductionHypothesis wellFormedRest sameRest]
  | directory name inner rest inductionInner inductionRest =>
      obtain ⟨_, absent, wellFormedInner, wellFormedRest⟩ := wellFormed
      obtain ⟨other, others, rfl, sameBelow, sameRest⟩ := exists_cons_of_sameKinds absent same
      have sameKind : (Entry.directory inner).kind = other.kind := by simpa using sameBelow []
      cases other with
      | directory innerToo =>
          rw [emptied, emptied, Entry.emptied, Entry.emptied,
            inductionInner wellFormedInner sameBelow, inductionRest wellFormedRest sameRest]
      | _ => cases sameKind

end

end Listing

namespace Entry

variable {first second : Entry}

theorem emptied_eq_of_sameKinds (wellFormed : first.WellFormed) (same : first.SameKinds second) :
    first.emptied = second.emptied := by
  have sameKind : first.kind = second.kind := by simpa using same []
  cases first with
  | directory listing =>
      cases second with
      | directory other =>
          exact congrArg directory (Listing.emptied_eq_of_sameKinds wellFormed same)
      | _ => cases sameKind
  | _ => exact emptied_eq_of_kind_eq rfl sameKind

theorem wellFormed_emptied_iff {entry : Entry} : entry.emptied.WellFormed ↔ entry.WellFormed := by
  cases entry with
  | directory listing => exact Listing.wellFormed_emptied_iff
  | _ => exact Iff.rfl

end Entry

namespace Disk

variable {first second : Disk}

/-- Seen from any place, two disks of the same kinds have the same kinds below it. -/
theorem SameKinds.entry_sameKinds (same : first.SameKinds second) {location : Location}
    {one other : Entry} (found : first.entry? location = some one)
    (foundToo : second.entry? location = some other) : one.SameKinds other := by
  intro below
  have there := same.kinds (location ++ below)
  unfold kind? entry? at *
  rwa [Entry.at?_append, Entry.at?_append, found, foundToo] at there

theorem SameKinds.wellFormed (same : first.SameKinds second) (wellFormed : first.WellFormed) :
    second.WellFormed := by
  have emptied : first.root.emptied = second.root.emptied :=
    Entry.emptied_eq_of_sameKinds wellFormed same.kinds
  exact Entry.wellFormed_emptied_iff.mp (emptied ▸ Entry.wellFormed_emptied_iff.mpr wellFormed)

end Disk

end ImportSuffix
