import ImportSuffix.Proofs.Disk.Names

/-!
Trees that a disk can hold: every entry has a name, and no directory has two
entries of one name.

In such a tree, looking a name up finds exactly what the directory lists.
-/

namespace ImportSuffix

open Text

/-- Induction on what a directory lists, with all that is below it. -/
theorem Listing.induction {motive : Listing → Prop} (nil : motive [])
    (leaf : ∀ name entry rest, entry.isDirectory = false → motive rest →
      motive ((name, entry) :: rest))
    (directory : ∀ name inner rest, motive inner → motive rest →
      motive ((name, .directory inner) :: rest)) :
    ∀ listing, motive listing
  | [] => nil
  | (name, .directory inner) :: rest =>
      directory name inner rest (induction nil leaf directory inner)
        (induction nil leaf directory rest)
  | (name, .file content) :: rest =>
      leaf name (.file content) rest rfl (induction nil leaf directory rest)
  | (name, .link target) :: rest =>
      leaf name (.link target) rest rfl (induction nil leaf directory rest)
  | (name, .pipe) :: rest => leaf name .pipe rest rfl (induction nil leaf directory rest)

mutual

/-- Every directory in the tree lists valid names, each once. -/
def Entry.WellFormed : Entry → Prop
  | .directory listing => Listing.WellFormed listing
  | .file _ | .link _ | .pipe => True

def Listing.WellFormed : Listing → Prop
  | [] => True
  | (name, entry) :: rest =>
      ValidName name ∧ name ∉ rest.map Prod.fst ∧ entry.WellFormed ∧ Listing.WellFormed rest

end

mutual

def Entry.decideWellFormed : (entry : Entry) → Decidable entry.WellFormed
  | .directory listing => Listing.decideWellFormed listing
  | .file _ | .link _ | .pipe => isTrue trivial

def Listing.decideWellFormed : (listing : Listing) → Decidable (Listing.WellFormed listing)
  | [] => isTrue trivial
  | (name, entry) :: rest =>
      haveI := entry.decideWellFormed
      haveI := Listing.decideWellFormed rest
      inferInstanceAs (Decidable (ValidName name ∧ name ∉ rest.map Prod.fst ∧ entry.WellFormed ∧
        Listing.WellFormed rest))

end

instance (entry : Entry) : Decidable entry.WellFormed := entry.decideWellFormed

instance (listing : Listing) : Decidable (Listing.WellFormed listing) :=
  Listing.decideWellFormed listing

def Disk.WellFormed (disk : Disk) : Prop := disk.root.WellFormed

instance (disk : Disk) : Decidable disk.WellFormed := inferInstanceAs (Decidable disk.root.WellFormed)

namespace Listing.WellFormed

variable {listing : Listing} {name : Bytes} {entry : Entry}

theorem of_mem (wellFormed : Listing.WellFormed listing) (membership : (name, entry) ∈ listing) :
    ValidName name ∧ entry.WellFormed := by
  induction listing with
  | nil => cases membership
  | cons head rest inductionHypothesis =>
      obtain ⟨valid, _, below, wellFormedRest⟩ := wellFormed
      rcases List.mem_cons.mp membership with rfl | later
      · exact ⟨valid, below⟩
      · exact inductionHypothesis wellFormedRest later

theorem lookup_eq_some_iff (wellFormed : Listing.WellFormed listing) :
    listing.lookup name = some entry ↔ (name, entry) ∈ listing := by
  induction listing with
  | nil => simp
  | cons head rest inductionHypothesis =>
      obtain ⟨other, below⟩ := head
      obtain ⟨_, absent, _, wellFormedRest⟩ := wellFormed
      rw [List.lookup_cons, List.mem_cons]
      by_cases same : name = other
      · subst same
        have notLater : (name, entry) ∉ rest := by
          intro later
          exact absent (List.mem_map_of_mem later)
        simp [notLater, eq_comm]
      · simp [beq_false_of_ne same, same, inductionHypothesis wellFormedRest]

end Listing.WellFormed

namespace Entry.WellFormed

theorem at? {root entry : Entry} {location : Location} (wellFormed : root.WellFormed)
    (found : root.at? location = some entry) : entry.WellFormed := by
  induction location generalizing root with
  | nil =>
      rw [at?_nil, Option.some.injEq] at found
      exact found ▸ wellFormed
  | cons name rest inductionHypothesis =>
      cases root with
      | directory listing =>
          obtain ⟨below, first, others⟩ := Option.bind_eq_some_iff.mp found
          have inside : Listing.WellFormed listing := wellFormed
          have membership := inside.lookup_eq_some_iff.mp first
          exact inductionHypothesis (inside.of_mem membership).2 others
      | _ => cases found

end Entry.WellFormed

theorem Disk.WellFormed.entry_wellFormed {disk : Disk} {location : Location} {entry : Entry}
    (wellFormed : disk.WellFormed) (found : disk.entry? location = some entry) :
    entry.WellFormed :=
  Entry.WellFormed.at? wellFormed found

end ImportSuffix
