import ImportSuffix.Disk.Access

/-!
Disks as they are seen from outside: what there is at each location, and the
content of each file.

Paths lead where they lead because of what there is, whatever the files contain.
Giving a file another content changes that content and nothing else.
-/

namespace ImportSuffix

open Text

/-- What an entry is.  A directory shows its names in their order, and a file does
not show its content. -/
inductive Kind where
  | file
  | directory (names : List Bytes)
  | link (target : Path)
  | pipe
  deriving DecidableEq, Repr

/-- The kind of an entry without its listing. -/
def Kind.unlisted : Kind → Kind
  | directory _ => directory []
  | kind => kind

namespace Entry

def kind : Entry → Kind
  | file _ => .file
  | directory listing => .directory (listing.map Prod.fst)
  | link target => .link target
  | pipe => .pipe

def content? : Entry → Option Bytes
  | file content => some content
  | _ => none

theorem eq_file_of_content? {entry : Entry} {content : Bytes}
    (held : entry.content? = some content) : entry = file content := by
  cases entry with
  | file other =>
      cases held
      rfl
  | _ => cases held

end Entry

theorem Listing.map_fst_update {name : Bytes} {listing : Listing}
    (present : (listing.lookup name).isSome = true) (change : Option Entry → Entry) :
    (Listing.update name change listing).map Prod.fst = listing.map Prod.fst := by
  induction listing with
  | nil => cases present
  | cons head rest inductionHypothesis =>
      obtain ⟨other, entry⟩ := head
      by_cases same : other = name
      · simp [update, same]
      · rw [List.lookup_cons, beq_false_of_ne (Ne.symm same)] at present
        simp [update, same, inductionHypothesis present]

namespace Entry

theorem at?_cons_eq_some {root entry : Entry} {name : Bytes} {rest : Location}
    (found : root.at? (name :: rest) = some entry) :
    ∃ listing below, root = directory listing ∧ listing.lookup name = some below ∧
      below.at? rest = some entry := by
  cases root with
  | directory listing =>
      obtain ⟨below, first, others⟩ := Option.bind_eq_some_iff.mp found
      exact ⟨listing, below, rfl, first, others⟩
  | _ => cases found

section

variable {listing : Listing} {below : Entry} {name : Bytes}

theorem insert_directory (found : listing.lookup name = some below) (new : Entry)
    (rest : Location) :
    ∃ changed : Listing, insert new (directory listing) (name :: rest) = directory changed ∧
      changed.map Prod.fst = listing.map Prod.fst ∧
      changed.lookup name = some (insert new below rest) ∧
      ∀ other, other ≠ name → changed.lookup other = listing.lookup other := by
  refine ⟨_, rfl, ?_, ?_, ?_⟩
  · apply Listing.map_fst_update
    simp [found]
  · rw [Listing.lookup_update, found]
    rfl
  · intro other differs
    exact Listing.lookup_update_ne differs _ listing

end

/-- Another content makes no entry another kind of entry. -/
theorem kind_at?_insert {root : Entry} {location : Location} {old : Bytes}
    (held : root.at? location = some (file old)) (new : Bytes) (other : Location) :
    ((insert (file new) root location).at? other).map kind = (root.at? other).map kind := by
  induction location generalizing root other with
  | nil =>
      rw [at?_nil, Option.some.injEq] at held
      subst held
      cases other <;> rfl
  | cons name rest inductionHypothesis =>
      obtain ⟨listing, below, rfl, found, heldBelow⟩ := at?_cons_eq_some held
      obtain ⟨changed, inserted, names, here, others⟩ := insert_directory found (file new) rest
      rw [inserted]
      cases other with
      | nil => simp [kind, names]
      | cons first more =>
          by_cases same : first = name
          · subst same
            simp only [at?, here, found, Option.bind_some]
            exact inductionHypothesis heldBelow more
          · simp only [at?, others first same]

/-- Only the file that gets another content has one. -/
theorem content?_at?_insert {root : Entry} {location : Location} {old : Bytes}
    (held : root.at? location = some (file old)) (new : Bytes) (other : Location) :
    ((insert (file new) root location).at? other).bind content? =
      if other = location then some new else (root.at? other).bind content? := by
  induction location generalizing root other with
  | nil =>
      rw [at?_nil, Option.some.injEq] at held
      subst held
      cases other <;> rfl
  | cons name rest inductionHypothesis =>
      obtain ⟨listing, below, rfl, found, heldBelow⟩ := at?_cons_eq_some held
      obtain ⟨changed, inserted, names, here, others⟩ := insert_directory found (file new) rest
      rw [inserted]
      cases other with
      | nil => rfl
      | cons first more =>
          by_cases same : first = name
          · subst same
            simp only [at?, here, found, Option.bind_some, List.cons.injEq, true_and]
            exact inductionHypothesis heldBelow more
          · simp only [at?, others first same, List.cons.injEq, same, false_and, if_false]

end Entry

namespace Disk

def kind? (disk : Disk) (location : Location) : Option Kind :=
  (disk.entry? location).map Entry.kind

def content? (disk : Disk) (location : Location) : Option Bytes :=
  (disk.entry? location).bind Entry.content?

theorem kind?_eq_kind {disk : Disk} {location : Location} {entry : Entry}
    (found : disk.entry? location = some entry) : disk.kind? location = some entry.kind := by
  rw [kind?, found]
  rfl

/-- Two disks with the same entries everywhere, up to the contents of files. -/
structure SameKinds (first second : Disk) : Prop where
  workingDirectory : first.workingDirectory = second.workingDirectory
  kinds : ∀ location, first.kind? location = second.kind? location

theorem SameKinds.refl (disk : Disk) : disk.SameKinds disk := ⟨rfl, fun _ => rfl⟩

theorem SameKinds.symm {first second : Disk} (same : first.SameKinds second) :
    second.SameKinds first :=
  ⟨same.workingDirectory.symm, fun location => (same.kinds location).symm⟩

theorem SameKinds.trans {first second third : Disk} (front : first.SameKinds second)
    (back : second.SameKinds third) : first.SameKinds third :=
  ⟨front.workingDirectory.trans back.workingDirectory,
    fun location => (front.kinds location).trans (back.kinds location)⟩

/-- Two disks on which paths lead the same way: the same entries everywhere, up to the contents
of files and the order of listings. -/
structure SameWays (first second : Disk) : Prop where
  workingDirectory : first.workingDirectory = second.workingDirectory
  kinds : ∀ location,
    (first.kind? location).map Kind.unlisted = (second.kind? location).map Kind.unlisted

theorem SameKinds.ways {first second : Disk} (same : first.SameKinds second) :
    first.SameWays second :=
  ⟨same.workingDirectory, fun location => congrArg (Option.map Kind.unlisted) (same.kinds location)⟩

theorem content?_eq_some_iff {disk : Disk} {location : Location} {content : Bytes} :
    disk.content? location = some content ↔ disk.entry? location = some (.file content) := by
  rw [content?, Option.bind_eq_some_iff]
  constructor
  · rintro ⟨entry, found, held⟩
    rw [found, Entry.eq_file_of_content? held]
  · intro found
    exact ⟨_, found, rfl⟩

theorem insert_sameKinds {disk : Disk} {location : Location} {old : Bytes}
    (held : disk.content? location = some old) (new : Bytes) :
    (disk.insert location (.file new)).SameKinds disk :=
  ⟨rfl, Entry.kind_at?_insert (content?_eq_some_iff.mp held) new⟩

theorem content?_insert {disk : Disk} {location : Location} {old : Bytes}
    (held : disk.content? location = some old) (new : Bytes) (other : Location) :
    (disk.insert location (.file new)).content? other =
      if other = location then some new else disk.content? other :=
  Entry.content?_at?_insert (content?_eq_some_iff.mp held) new other

end Disk

end ImportSuffix
