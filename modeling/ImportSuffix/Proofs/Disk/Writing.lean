import ImportSuffix.Proofs.Disk.Leads
import ImportSuffix.Proofs.Disk.Names

/-!
What writing a file does to a disk.

A file that is there gets another content.  Otherwise one is made at the end of the directory to
which the path leads, also through links.  In both cases the path leads to the file from then
on, and all else is as it was.
-/

namespace ImportSuffix

open Text

namespace Listing

variable {name : Bytes} {entry : Entry} {listing : Listing} {change : Option Entry → Entry}

theorem update_of_lookup_eq_none (vacant : listing.lookup name = none) :
    Listing.update name change listing = listing ++ [(name, change none)] := by
  induction listing with
  | nil => rfl
  | cons head rest inductionHypothesis =>
      obtain ⟨other, first⟩ := head
      by_cases same : other = name
      · simp [same] at vacant
      · rw [List.lookup_cons, beq_false_of_ne (Ne.symm same)] at vacant
        rw [update, if_neg same, inductionHypothesis vacant]
        rfl

/-- To give a name the entry that it has changes nothing. -/
theorem update_of_lookup (found : listing.lookup name = some entry)
    (kept : change (some entry) = entry) : Listing.update name change listing = listing := by
  induction listing with
  | nil => cases found
  | cons head rest inductionHypothesis =>
      obtain ⟨other, first⟩ := head
      by_cases same : other = name
      · rw [same, List.lookup_cons_self, Option.some.injEq] at found
        rw [update, if_pos same, found, kept]
      · rw [List.lookup_cons, beq_false_of_ne (Ne.symm same)] at found
        rw [update, if_neg same, inductionHypothesis found]

end Listing

namespace Entry

theorem insert_of_at? {root entry : Entry} {location : Location}
    (found : root.at? location = some entry) : insert entry root location = root := by
  induction location generalizing root with
  | nil =>
      rw [at?_nil, Option.some.injEq] at found
      rw [insert, found]
  | cons name rest inductionHypothesis =>
      obtain ⟨listing, below, isDirectory, first, others⟩ := at?_cons_eq_some found
      rw [isDirectory, insert, Listing.update_of_lookup first]
      exact inductionHypothesis others

section

variable {root : Entry} {top : Location} {listing : Listing} {name : Bytes}

/-- A new file is the last entry of its directory.  It makes no other entry another kind, and no
other file gets its content. -/
theorem at?_insert_new (there : root.at? top = some (directory listing))
    (vacant : listing.lookup name = none) (content : Bytes) (other : Location) :
    ((insert (file content) root (top ++ [name])).at? other).map kind =
      (if other = top ++ [name] then some .file
      else if other = top then some (.directory (listing.map Prod.fst ++ [name]))
      else (root.at? other).map kind) ∧
    ((insert (file content) root (top ++ [name])).at? other).bind content? =
      if other = top ++ [name] then some content else (root.at? other).bind content? := by
  induction top generalizing root other with
  | nil =>
      rw [at?_nil, Option.some.injEq] at there
      rw [there, List.nil_append, insert, Listing.update_of_lookup_eq_none vacant]
      cases other with
      | nil => simp [insert, kind, content?]
      | cons first more =>
          by_cases same : first = name
          · rw [same]
            cases more <;> simp [at?, insert, kind, content?, vacant, List.lookup_append]
          · simp [at?, same, List.lookup_append, List.lookup_cons, beq_false_of_ne same]
  | cons first rest inductionHypothesis =>
      obtain ⟨above, below, isDirectory, found, thereBelow⟩ := at?_cons_eq_some there
      obtain ⟨changed, inserted, names, here, others⟩ :=
        insert_directory found (file content) (rest ++ [name])
      rw [isDirectory, List.cons_append, inserted]
      cases other with
      | nil => simp [kind, content?, names]
      | cons next more =>
          by_cases same : next = first
          · simp only [same, at?, here, found, Option.bind_some, List.cons.injEq, true_and]
            exact inductionHypothesis thereBelow more
          · simp only [at?, others next same, List.cons.injEq, same, false_and, if_false,
              and_self]

end

end Entry

/-- Only a path from the top may have no steps: any other one begins with a name. -/
theorem Path.isAbsolute_of_parts_eq_nil {path : Path} (nonempty : path.bytes ≠ [])
    (stepless : path.parts = []) : path.isAbsolute = true := by
  obtain ⟨bytes⟩ := path
  cases bytes with
  | nil => exact absurd rfl nonempty
  | cons byte rest =>
      by_cases isSeparator : byte = separator
      · simp [isAbsolute, isSeparator]
      · obtain ⟨segment, others, split⟩ := List.exists_cons_of_ne_nil (segments_ne_nil rest)
        simp only [parts, segments, if_neg isSeparator, split] at stepless
        have first := (List.append_eq_nil_iff.mp stepless).1
        rw [List.filterMap_eq_nil_iff] at first
        have unread := first (byte :: segment) List.mem_cons_self
        unfold Part.ofSegment? at unread
        split at unread
        next empty => cases empty
        all_goals cases unread

namespace Disk

/-- A disk to which a file was added: its directory lists it last, and what there is anywhere
else is the same. -/
structure AddsFile (before after : Disk) (top : Location) (name : Bytes) : Prop where
  workingDirectory : after.workingDirectory = before.workingDirectory
  vacant : before.kind? (top ++ [name]) = none
  added : after.kind? (top ++ [name]) = some .file
  listed : ∃ names, before.kind? top = some (.directory names) ∧
    after.kind? top = some (.directory (names ++ [name]))
  others : ∀ other, other ≠ top ++ [name] → other ≠ top → after.kind? other = before.kind? other

/-- A disk on which the file at a location was given a content, and made if there was none. -/
structure Written (before after : Disk) (location : Location) (content : Bytes) : Prop where
  contents : ∀ other, after.content? other =
    if other = location then some content else before.content? other
  kinds : (before.kind? location = some .file ∧ after.SameKinds before) ∨
    ∃ top name, location = top ++ [name] ∧ before.AddsFile after top name

/-- Whatever there is on a disk is there on another one too, perhaps with more in it. -/
def StaysOn (before after : Disk) : Prop :=
  ∀ location kind, before.kind? location = some kind →
    ∃ other, after.kind? location = some other ∧ other.unlisted = kind.unlisted

section

variable {before after : Disk} {location : Location}

theorem SameKinds.staysOn (same : after.SameKinds before) : before.StaysOn after := by
  intro location kind found
  exact ⟨kind, (same.kinds location).trans found, rfl⟩

theorem AddsFile.staysOn {top : Location} {name : Bytes} (adds : before.AddsFile after top name) :
    before.StaysOn after := by
  intro location kind found
  by_cases here : location = top
  · obtain ⟨names, listed, longer⟩ := adds.listed
    rw [here, listed, Option.some.injEq] at found
    rw [here, ← found]
    exact ⟨_, longer, rfl⟩
  · have elsewhere : location ≠ top ++ [name] := by
      intro same
      rw [same, adds.vacant] at found
      cases found
    exact ⟨kind, (adds.others location elsewhere here).trans found, rfl⟩

theorem StaysOn.directory {names : List Bytes} (stays : before.StaysOn after)
    (found : before.kind? location = some (.directory names)) :
    ∃ others, after.kind? location = some (.directory others) := by
  obtain ⟨kind, there, same⟩ := stays location _ found
  cases kind <;> cases same
  exact ⟨_, there⟩

theorem StaysOn.link {target : Path} (stays : before.StaysOn after)
    (found : before.kind? location = some (.link target)) :
    after.kind? location = some (.link target) := by
  obtain ⟨kind, there, same⟩ := stays location _ found
  cases kind <;> cases same
  exact there

theorem StaysOn.real {kind : Kind} (stays : before.StaysOn after)
    (found : before.kind? location = some kind) (real : ∀ target, kind ≠ .link target) :
    ∃ other, after.kind? location = some other ∧ ∀ target, other ≠ .link target := by
  obtain ⟨other, there, same⟩ := stays location _ found
  refine ⟨other, there, ?_⟩
  intro target linked
  rw [linked] at same
  cases kind <;> cases same
  exact real target rfl

end

/-- Steps that lead to a location for writing: all links on the way are followed, and the last
name may be one that nothing has yet. -/
inductive LeadsToPlace (disk : Disk) : Nat → Location → List Part → Location → Prop where
  | arrived {links here kind} :
      disk.kind? here = some kind → LeadsToPlace disk links here [] here
  | vacant {links here names name} :
      disk.kind? here = some (.directory names) → name.length ≤ nameLimit →
      disk.kind? (here ++ [name]) = none →
      LeadsToPlace disk links here [.down name] (here ++ [name])
  | here {links here names rest location} :
      disk.kind? here = some (.directory names) →
      LeadsToPlace disk links here rest location →
      LeadsToPlace disk links here (.here :: rest) location
  | trailing {links here names rest location} :
      disk.kind? here = some (.directory names) →
      LeadsToPlace disk links here rest location →
      LeadsToPlace disk links here (.trailing :: rest) location
  | up {links here names rest location} :
      disk.kind? here = some (.directory names) →
      LeadsToPlace disk links here.dropLast rest location →
      LeadsToPlace disk links here (.up :: rest) location
  | down {links here names name kind rest location} :
      disk.kind? here = some (.directory names) → name.length ≤ nameLimit →
      disk.kind? (here ++ [name]) = some kind → (∀ target, kind ≠ .link target) →
      LeadsToPlace disk links (here ++ [name]) rest location →
      LeadsToPlace disk links here (.down name :: rest) location
  | link {links here names name target rest location} :
      disk.kind? here = some (.directory names) → name.length ≤ nameLimit →
      disk.kind? (here ++ [name]) = some (.link target) →
      LeadsToPlace disk links (start target here) (target.parts ++ rest) location →
      LeadsToPlace disk (links + 1) here (.down name :: rest) location

theorem exists_kind?_dropLast {disk : Disk} {here : Location} {kind : Kind}
    (found : disk.kind? here = some kind) : ∃ other, disk.kind? here.dropLast = some other := by
  rcases List.eq_nil_or_concat here with empty | ⟨above, name, whole⟩
  · rw [empty] at found ⊢
    exact ⟨kind, found⟩
  · rw [List.concat_eq_append] at whole
    rw [whole, List.dropLast_concat]
    obtain ⟨entry, there, _⟩ := Option.map_eq_some_iff.mp found
    rw [whole, entry?, Entry.at?_append] at there
    obtain ⟨parent, foundParent, _⟩ := Option.bind_eq_some_iff.mp there
    exact ⟨parent.kind, kind?_eq_kind foundParent⟩

theorem leadsToPlace_of_advance {disk : Disk} {links : Nat} {location : Location}
    (linked : ∀ here names name target rest, disk.kind? here = some (.directory names) →
      name.length ≤ nameLimit → disk.kind? (here ++ [name]) = some (.link target) →
      disk.throughLink .place links here target rest = .ok location →
      disk.LeadsToPlace links here (.down name :: rest) location)
    {here : Location} {parts : List Part}
    (there : parts = [] → ∃ kind, disk.kind? here = some kind)
    (led : disk.advance .place (disk.throughLink .place links) here parts = .ok location) :
    disk.LeadsToPlace links here parts location := by
  induction parts generalizing here with
  | nil =>
      cases led
      obtain ⟨kind, found⟩ := there rfl
      exact .arrived found
  | cons part rest inductionHypothesis =>
      rw [advance_cons] at led
      match directory : disk.kind? here with
      | some (.directory names) =>
          rw [directory] at led
          cases part with
          | here => exact .here directory (inductionHypothesis (fun _ => ⟨_, directory⟩) led)
          | trailing =>
              exact .trailing directory (inductionHypothesis (fun _ => ⟨_, directory⟩) led)
          | up =>
              have above := exists_kind?_dropLast directory
              exact .up directory (inductionHypothesis (fun _ => above) led)
          | down name =>
              simp only [true_and] at led
              split at led
              · cases led
              split at led
              · cases led
              next within =>
                have short : name.length ≤ nameLimit := Nat.le_of_not_lt within
                match below : disk.kind? (here ++ [name]) with
                | none =>
                    rw [below] at led
                    dsimp only at led
                    split at led
                    next last =>
                      cases led
                      rw [last]
                      exact .vacant directory short below
                    next => cases led
                | some (.link target) =>
                    rw [below] at led
                    have followed : disk.throughLink .place links here target rest = .ok location := by
                      simpa using led
                    exact linked here names name target rest directory short below followed
                | some .file | some (.directory _) | some .pipe =>
                    rw [below] at led
                    have further := inductionHypothesis (fun _ => ⟨_, below⟩) led
                    exact .down directory short below (by simp) further
      | none | some .file | some (.link _) | some .pipe =>
          rw [directory] at led
          cases led

theorem exists_listing_of_kind? {disk : Disk} {location : Location} {names : List Bytes}
    (found : disk.kind? location = some (.directory names)) :
    ∃ listing, disk.entry? location = some (.directory listing) := by
  obtain ⟨entry, there, listed⟩ := Option.map_eq_some_iff.mp found
  cases entry <;> cases listed
  exact ⟨_, there⟩

theorem kind?_nil (disk : Disk) : disk.kind? [] = some disk.root.kind :=
  kind?_eq_kind (Entry.at?_nil disk.root)

theorem leadsToPlace_of_walk {disk : Disk} {links : Nat} {here location : Location}
    {parts : List Part} (there : parts = [] → ∃ kind, disk.kind? here = some kind)
    (led : disk.walk .place links here parts = .ok location) :
    disk.LeadsToPlace links here parts location := by
  induction links generalizing here parts with
  | zero =>
      rw [walk_eq_advance] at led
      apply leadsToPlace_of_advance _ there led
      intro here names name target rest _ _ _ refused
      cases refused
  | succ links inductionHypothesis =>
      rw [walk_eq_advance] at led
      apply leadsToPlace_of_advance _ there led
      intro here names name target rest directory short below followed
      refine .link directory short below (inductionHypothesis ?_ followed)
      intro _
      -- The target starts at the top or in the directory of the link.
      unfold start
      split
      next => exact ⟨_, disk.kind?_nil⟩
      next => exact ⟨_, directory⟩

namespace LeadsToPlace

variable {disk after : Disk} {links : Nat} {here location : Location} {parts : List Part}

/-- What leads to a place leads to the file that is made there. -/
theorem leads (led : disk.LeadsToPlace links here parts location) (stays : disk.StaysOn after)
    (made : after.kind? location = some .file) : after.Leads links here parts location := by
  induction led with
  | arrived => exact .arrived
  | vacant directory short _ =>
      obtain ⟨names, listed⟩ := stays.directory directory
      exact .down listed short made (by simp) .arrived
  | here directory _ inductionHypothesis =>
      obtain ⟨names, listed⟩ := stays.directory directory
      exact .here listed (inductionHypothesis made)
  | trailing directory _ inductionHypothesis =>
      obtain ⟨names, listed⟩ := stays.directory directory
      exact .trailing listed (inductionHypothesis made)
  | up directory _ inductionHypothesis =>
      obtain ⟨names, listed⟩ := stays.directory directory
      exact .up listed (inductionHypothesis made)
  | down directory short below real _ inductionHypothesis =>
      obtain ⟨names, listed⟩ := stays.directory directory
      obtain ⟨kind, found, realToo⟩ := stays.real below real
      exact .down listed short found realToo (inductionHypothesis made)
  | link directory short below _ inductionHypothesis =>
      obtain ⟨names, listed⟩ := stays.directory directory
      exact .link listed short (stays.link below) (inductionHypothesis made)

/-- A place where there is nothing is a name in a directory. -/
theorem exists_directory (led : disk.LeadsToPlace links here parts location)
    (vacant : disk.kind? location = none) :
    ∃ top name names, location = top ++ [name] ∧ disk.kind? top = some (.directory names) := by
  induction led with
  | arrived found =>
      rw [found] at vacant
      cases vacant
  | @vacant _ here names name directory _ _ => exact ⟨here, name, names, rfl, directory⟩
  | here _ _ inductionHypothesis
  | trailing _ _ inductionHypothesis
  | up _ _ inductionHypothesis
  | down _ _ _ _ _ inductionHypothesis
  | link _ _ _ _ inductionHypothesis => exact inductionHypothesis vacant

end LeadsToPlace

section

variable {disk after : Disk} {path : Path} {location : Location}

theorem leadsToPlace_of_locate (led : disk.locate .place path = .ok location) :
    disk.LeadsToPlace linkLimit (start path disk.workingDirectory) path.parts location := by
  obtain ⟨passable, walked⟩ := locate_eq_ok_iff.mp led
  refine leadsToPlace_of_walk ?_ walked
  intro stepless
  have absolute := Path.isAbsolute_of_parts_eq_nil passable.nonempty stepless
  rw [start, if_pos absolute]
  exact ⟨_, disk.kind?_nil⟩

/-- Where a path leads for writing, it leads for reading once the file is there. -/
theorem locate_target_of_place (led : disk.locate .place path = .ok location)
    (sameDirectory : after.workingDirectory = disk.workingDirectory) (stays : disk.StaysOn after)
    (made : after.kind? location = some .file) : after.locate .target path = .ok location := by
  have leads := (leadsToPlace_of_locate led).leads stays made
  refine locate_eq_ok_iff.mpr ⟨(locate_eq_ok_iff.mp led).1, ?_⟩
  rw [sameDirectory]
  exact leads.walk_target

theorem write_eq_ok_iff {text : String} :
    disk.write path text = .ok after ↔
      ∃ location, disk.locate .place path = .ok location ∧
        (disk.entry? location = none ∨ ∃ old, disk.entry? location = some (.file old)) ∧
        after = disk.insert location (.file (encode text)) := by
  unfold write
  cases disk.locate .place path with
  | error cause => simp [bind, Except.bind]
  | ok location =>
      simp only [bind, Except.bind, Except.ok.injEq, exists_eq_left']
      cases found : disk.entry? location with
      | none => simp [pure, Except.pure, eq_comm]
      | some entry =>
          cases entry with
          | file old => simp [pure, Except.pure, eq_comm]
          | _ => simp [throw, throwThe, MonadExceptOf.throw]

section

variable {top : Location} {listing : Listing} {name : Bytes}

theorem kind?_insert_new (there : disk.entry? top = some (.directory listing))
    (vacant : listing.lookup name = none) (content : Bytes) (other : Location) :
    (disk.insert (top ++ [name]) (.file content)).kind? other =
      if other = top ++ [name] then some .file
      else if other = top then some (.directory (listing.map Prod.fst ++ [name]))
      else disk.kind? other :=
  (Entry.at?_insert_new there vacant content other).1

theorem content?_insert_new (there : disk.entry? top = some (.directory listing))
    (vacant : listing.lookup name = none) (content : Bytes) (other : Location) :
    (disk.insert (top ++ [name]) (.file content)).content? other =
      if other = top ++ [name] then some content else disk.content? other :=
  (Entry.at?_insert_new there vacant content other).2

theorem addsFile_insert (there : disk.entry? top = some (.directory listing))
    (vacant : listing.lookup name = none) (content : Bytes) :
    disk.AddsFile (disk.insert (top ++ [name]) (.file content)) top name where
  workingDirectory := rfl
  vacant := by
    rw [kind?_append_singleton there, vacant]
    rfl
  added := by rw [kind?_insert_new there vacant, if_pos rfl]
  listed := by
    refine ⟨listing.map Prod.fst, kind?_eq_kind there, ?_⟩
    rw [kind?_insert_new there vacant, if_neg (by simp), if_pos rfl]
  others other notNew notTop := by
    rw [kind?_insert_new there vacant, if_neg notNew, if_neg notTop]

end

/-- Writing puts the text where the path leads, and from then on it leads there for reading. -/
theorem written_of_write {text : String} (wrote : disk.write path text = .ok after) :
    ∃ location, disk.locate .place path = .ok location ∧
      disk.Written after location (encode text) ∧ after.locate .target path = .ok location := by
  obtain ⟨location, led, state, result⟩ := write_eq_ok_iff.mp wrote
  rw [result]
  cases state with
  | inl vacant =>
      have nothing : disk.kind? location = none := by rw [kind?, vacant, Option.map_none]
      obtain ⟨top, name, names, whole, isDirectory⟩ :=
        (leadsToPlace_of_locate led).exists_directory nothing
      obtain ⟨listing, there⟩ := exists_listing_of_kind? isDirectory
      rw [whole, entry?_append_singleton there] at vacant
      have adds := addsFile_insert there vacant (encode text)
      have contents := content?_insert_new there vacant (encode text)
      rw [whole] at led ⊢
      exact ⟨_, led, ⟨contents, .inr ⟨top, name, rfl, adds⟩⟩,
        locate_target_of_place led adds.workingDirectory adds.staysOn adds.added⟩
  | inr present =>
      obtain ⟨old, found⟩ := present
      have held := content?_eq_some_iff.mpr found
      have isFile := kind?_eq_kind found
      have same := insert_sameKinds held (encode text)
      have madeFile := (same.kinds location).trans isFile
      exact ⟨location, led, ⟨content?_insert held (encode text), .inl ⟨isFile, same⟩⟩,
        locate_target_of_place led same.workingDirectory same.staysOn madeFile⟩

/-- The text that was written is the one that is read. -/
theorem read_of_write {text : String} (wrote : disk.write path text = .ok after) :
    after.read path = .ok text := by
  obtain ⟨location, _, written, led⟩ := written_of_write wrote
  refine read_eq_ok_iff.mpr ⟨location, led, ?_⟩
  rw [written.contents, if_pos rfl]

/-- To write the text that was read changes nothing. -/
theorem write_of_read_self {text : String} (held : disk.read path = .ok text) :
    disk.write path text = .ok disk := by
  obtain ⟨location, led, content⟩ := read_eq_ok_iff.mp held
  have same := Entry.insert_of_at? (content?_eq_some_iff.mp content)
  rw [write_of_read led content, insert, same]

end

end Disk

end ImportSuffix
