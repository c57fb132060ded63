import ImportSuffix.Proofs.Disk.Resolution

/-!
Paths that can be followed to their end.

`Leads` are the steps of a walk that takes every link on its way.  A walk may stop
earlier, at a link that comes last or at a place where a file can be made; but
where a path leads to a file, all walks agree on it, so what can be read can also
be written, and in the same place.
-/

namespace ImportSuffix

open Text

namespace Disk

/-- What a walk does at a link, by the number of links that are allowed. -/
def throughLink (disk : Disk) (ending : Ending) :
    Nat → Location → Path → List Part → Except Cause Location
  | 0, _, _, _ => .error (.system .tooManyLinks)
  | links + 1, here, target, rest =>
      disk.walk ending links (start target here) (target.parts ++ rest)

theorem walk_eq_advance (disk : Disk) (ending : Ending) (links : Nat) :
    disk.walk ending links = disk.advance ending (disk.throughLink ending links) := by
  cases links <;> rfl

/-- Steps that lead from one location to another, through at most a number of links,
with every link on the way followed. -/
inductive Leads (disk : Disk) : Nat → Location → List Part → Location → Prop where
  | arrived {links here} : Leads disk links here [] here
  | here {links here names rest location} :
      disk.kind? here = some (.directory names) →
      Leads disk links here rest location → Leads disk links here (.here :: rest) location
  | trailing {links here names rest location} :
      disk.kind? here = some (.directory names) →
      Leads disk links here rest location → Leads disk links here (.trailing :: rest) location
  | up {links here names rest location} :
      disk.kind? here = some (.directory names) →
      Leads disk links here.dropLast rest location → Leads disk links here (.up :: rest) location
  | down {links here names name kind rest location} :
      disk.kind? here = some (.directory names) → name.length ≤ nameLimit →
      disk.kind? (here ++ [name]) = some kind → (∀ target, kind ≠ .link target) →
      Leads disk links (here ++ [name]) rest location →
      Leads disk links here (.down name :: rest) location
  | link {links here names name target rest location} :
      disk.kind? here = some (.directory names) → name.length ≤ nameLimit →
      disk.kind? (here ++ [name]) = some (.link target) →
      Leads disk links (start target here) (target.parts ++ rest) location →
      Leads disk (links + 1) here (.down name :: rest) location

theorem leads_of_advance {disk : Disk} {ending : Ending} {links : Nat} {location : Location}
    (notPlace : ending ≠ .place)
    (settled : ending = .entry → ∀ target, disk.kind? location ≠ some (.link target))
    (linked : ∀ here names name target rest, disk.kind? here = some (.directory names) →
      name.length ≤ nameLimit → disk.kind? (here ++ [name]) = some (.link target) →
      disk.throughLink ending links here target rest = .ok location →
      disk.Leads links here (.down name :: rest) location)
    {here : Location} {parts : List Part}
    (led : disk.advance ending (disk.throughLink ending links) here parts = .ok location) :
    disk.Leads links here parts location := by
  induction parts generalizing here with
  | nil =>
      cases led
      exact .arrived
  | cons part rest inductionHypothesis =>
      rw [advance_cons] at led
      match directory : disk.kind? here with
      | some (.directory names) =>
          rw [directory] at led
          cases part with
          | here => exact .here directory (inductionHypothesis led)
          | trailing => exact .trailing directory (inductionHypothesis led)
          | up => exact .up directory (inductionHypothesis led)
          | down name =>
              simp only [notPlace, false_and, if_false] at led
              split at led
              · cases led
              next within =>
                have short : name.length ≤ nameLimit := Nat.le_of_not_lt within
                match below : disk.kind? (here ++ [name]) with
                | none =>
                    rw [below] at led
                    cases led
                | some (.link target) =>
                    rw [below] at led
                    dsimp only at led
                    split at led
                    next last =>
                      cases led
                      exact absurd below (settled last.1 target)
                    next => exact linked here names name target rest directory short below led
                | some .file | some (.directory _) | some .pipe =>
                    rw [below] at led
                    apply Leads.down directory short below _ (inductionHypothesis led)
                    intro target
                    simp
      | none | some .file | some (.link _) | some .pipe =>
          rw [directory] at led
          cases led

/-- A walk takes all links on its way, if it does not look for one. -/
theorem leads_of_walk {disk : Disk} {ending : Ending} {links : Nat} {here location : Location}
    {parts : List Part} (notPlace : ending ≠ .place)
    (settled : ending = .entry → ∀ target, disk.kind? location ≠ some (.link target))
    (led : disk.walk ending links here parts = .ok location) :
    disk.Leads links here parts location := by
  induction links generalizing here parts with
  | zero =>
      rw [walk_eq_advance] at led
      apply leads_of_advance notPlace settled _ led
      intro here names name target rest _ _ _ refused
      cases refused
  | succ links inductionHypothesis =>
      rw [walk_eq_advance] at led
      apply leads_of_advance notPlace settled _ led
      intro here names name target rest directory short below followed
      exact .link directory short below (inductionHypothesis followed)

theorem Leads.directory_of_trailing {disk : Disk} {links : Nat} {here location : Location}
    {parts front : List Part} (led : disk.Leads links here parts location)
    (slash : parts = front ++ [.trailing]) :
    ∃ names, disk.kind? location = some (.directory names) := by
  induction led generalizing front with
  | arrived => simp at slash
  | @here _ _ names _ _ directory _ inductionHypothesis
  | @up _ _ names _ _ directory _ inductionHypothesis =>
      cases front with
      | nil => simp at slash
      | cons part front => exact inductionHypothesis (List.cons.inj slash).2
  | @trailing _ _ names _ _ directory followed inductionHypothesis =>
      cases front with
      | nil =>
          obtain rfl := (List.cons.inj slash).2
          cases followed
          exact ⟨names, directory⟩
      | cons part front => exact inductionHypothesis (List.cons.inj slash).2
  | down _ _ _ _ _ inductionHypothesis =>
      cases front with
      | nil => simp at slash
      | cons part front => exact inductionHypothesis (List.cons.inj slash).2
  | @link _ _ _ _ target rest _ _ _ _ _ inductionHypothesis =>
      cases front with
      | nil => simp at slash
      | cons part front =>
          have longer : target.parts ++ rest = (target.parts ++ front) ++ [.trailing] := by
            rw [(List.cons.inj slash).2, List.append_assoc]
            rfl
          exact inductionHypothesis longer

section

variable {disk : Disk} {ending : Ending} {links : Nat} {here : Location} {names : List Bytes}
  {name : Bytes} {rest : List Part}

theorem walk_nil : disk.walk ending links here [] = .ok here := by
  rw [walk_eq_advance]
  rfl

theorem walk_here (directory : disk.kind? here = some (.directory names)) :
    disk.walk ending links here (.here :: rest) = disk.walk ending links here rest := by
  rw [walk_eq_advance, advance_cons, directory]

theorem walk_trailing (directory : disk.kind? here = some (.directory names)) :
    disk.walk ending links here (.trailing :: rest) = disk.walk ending links here rest := by
  rw [walk_eq_advance, advance_cons, directory]

theorem walk_up (directory : disk.kind? here = some (.directory names)) :
    disk.walk ending links here (.up :: rest) = disk.walk ending links here.dropLast rest := by
  rw [walk_eq_advance, advance_cons, directory]

theorem walk_down {kind : Kind} (directory : disk.kind? here = some (.directory names))
    (short : name.length ≤ nameLimit) (below : disk.kind? (here ++ [name]) = some kind)
    (real : ∀ target, kind ≠ .link target)
    (unfinished : ¬(ending = .place ∧ rest = [.trailing])) :
    disk.walk ending links here (.down name :: rest) =
      disk.walk ending links (here ++ [name]) rest := by
  rw [walk_eq_advance, advance_cons, directory]
  simp only [below, if_neg unfinished, if_neg (Nat.not_lt.mpr short)]

theorem walk_link {target : Path} (directory : disk.kind? here = some (.directory names))
    (short : name.length ≤ nameLimit)
    (below : disk.kind? (here ++ [name]) = some (.link target))
    (unfinished : ¬(ending = .place ∧ rest = [.trailing]))
    (followed : ¬(ending = .entry ∧ rest = [])) :
    disk.walk ending (links + 1) here (.down name :: rest) =
      disk.walk ending links (start target here) (target.parts ++ rest) := by
  rw [walk_eq_advance, advance_cons, directory]
  simp only [below, if_neg unfinished, if_neg (Nat.not_lt.mpr short), if_neg followed]
  rfl

theorem walk_last_link {target : Path} (directory : disk.kind? here = some (.directory names))
    (short : name.length ≤ nameLimit)
    (below : disk.kind? (here ++ [name]) = some (.link target)) :
    disk.walk .entry links here [.down name] = .ok (here ++ [name]) := by
  rw [walk_eq_advance, advance_cons, directory]
  simp [below, Nat.not_lt.mpr short]

end

theorem Leads.walk_target {disk : Disk} {links : Nat} {here location : Location}
    {parts : List Part} (led : disk.Leads links here parts location) :
    disk.walk .target links here parts = .ok location := by
  induction led with
  | arrived => exact walk_nil
  | here directory _ inductionHypothesis => rwa [walk_here directory]
  | trailing directory _ inductionHypothesis => rwa [walk_trailing directory]
  | up directory _ inductionHypothesis => rwa [walk_up directory]
  | down directory short below real _ inductionHypothesis =>
      rwa [walk_down directory short below real (by simp)]
  | link directory short below _ inductionHypothesis =>
      rwa [walk_link directory short below (by simp) (by simp)]

theorem Leads.walk_entry {disk : Disk} {links : Nat} {here location : Location}
    {parts : List Part} (led : disk.Leads links here parts location) :
    ∃ stop, disk.walk .entry links here parts = .ok stop ∧
      (stop = location ∨ ∃ target, disk.kind? stop = some (.link target)) := by
  induction led with
  | @arrived _ here => exact ⟨here, walk_nil, .inl rfl⟩
  | here directory _ inductionHypothesis => rwa [walk_here directory]
  | trailing directory _ inductionHypothesis => rwa [walk_trailing directory]
  | up directory _ inductionHypothesis => rwa [walk_up directory]
  | down directory short below real _ inductionHypothesis =>
      rwa [walk_down directory short below real (by simp)]
  | @link _ here _ name target rest _ directory short below _ inductionHypothesis =>
      by_cases last : rest = []
      · rw [last, walk_last_link directory short below]
        exact ⟨here ++ [name], rfl, .inr ⟨target, below⟩⟩
      · rwa [walk_link directory short below (by simp) (by simp [last])]

/-- What has to hold so that a walk, wherever it has to end, does not end before the
steps that follow other ones: there are some, or the walk leads to no directory. -/
structure Continues (disk : Disk) (ending : Ending) (slash rest : List Part)
    (location : Location) : Prop where
  apart : rest ≠ [.trailing]
  last : rest = [] → slash = [] ∧ ending ≠ .entry ∧
    ∀ names, disk.kind? location ≠ some (.directory names)

theorem Continues.unfinished {disk : Disk} {ending : Ending} {slash rest behind : List Part}
    {links : Nat} {here location : Location} (continues : disk.Continues ending slash rest location)
    (front : List Part) (led : disk.Leads links here (front ++ (behind ++ slash)) location) :
    ¬(ending = .place ∧ behind ++ rest = [.trailing]) := by
  rintro ⟨_, alone⟩
  cases behind with
  | nil => exact continues.apart alone
  | cons part behind =>
      obtain ⟨rfl, nothing⟩ := List.cons.inj alone
      obtain ⟨rfl, rfl⟩ := List.append_eq_nil_iff.mp nothing
      obtain ⟨rfl, _, noDirectory⟩ := continues.last rfl
      obtain ⟨names, directory⟩ := led.directory_of_trailing rfl
      exact noDirectory names directory

theorem Continues.followed {disk : Disk} {ending : Ending} {slash rest behind : List Part}
    {location : Location} (continues : disk.Continues ending slash rest location) :
    ¬(ending = .entry ∧ behind ++ rest = []) := by
  rintro ⟨isEntry, nothing⟩
  exact (continues.last (List.append_eq_nil_iff.mp nothing).2).2.1 isEntry

/-- Behind steps that lead to a location, a walk goes on from there.  A slash at the
end of the steps does not matter, if more steps follow. -/
theorem Leads.walk_append {disk : Disk} {links : Nat} {here location : Location}
    {steps parts slash rest : List Part} {ending : Ending}
    (led : disk.Leads links here steps location) (whole : steps = parts ++ slash)
    (slashes : slash = [] ∨ slash = [.trailing])
    (continues : disk.Continues ending slash rest location) :
    ∃ left, disk.walk ending links here (parts ++ rest) =
      disk.walk ending left location rest := by
  induction led generalizing parts with
  | @arrived links _ =>
      obtain ⟨rfl, rfl⟩ := List.append_eq_nil_iff.mp whole.symm
      exact ⟨links, rfl⟩
  | here directory _ inductionHypothesis =>
      cases parts with
      | nil => rcases slashes with rfl | rfl <;> cases whole
      | cons part parts =>
          obtain ⟨rfl, wholeRest⟩ := List.cons.inj whole
          rw [List.cons_append, walk_here directory]
          exact inductionHypothesis wholeRest continues
  | @trailing links _ _ _ _ directory led inductionHypothesis =>
      cases parts with
      | nil =>
          rcases slashes with rfl | rfl
          · cases whole
          · obtain ⟨_, rfl⟩ := List.cons.inj whole
            cases led
            exact ⟨links, rfl⟩
      | cons part parts =>
          obtain ⟨rfl, wholeRest⟩ := List.cons.inj whole
          rw [List.cons_append, walk_trailing directory]
          exact inductionHypothesis wholeRest continues
  | up directory _ inductionHypothesis =>
      cases parts with
      | nil => rcases slashes with rfl | rfl <;> cases whole
      | cons part parts =>
          obtain ⟨rfl, wholeRest⟩ := List.cons.inj whole
          rw [List.cons_append, walk_up directory]
          exact inductionHypothesis wholeRest continues
  | down directory short below real led inductionHypothesis =>
      cases parts with
      | nil => rcases slashes with rfl | rfl <;> cases whole
      | cons part parts =>
          obtain ⟨rfl, rfl⟩ := List.cons.inj whole
          rw [List.cons_append, walk_down directory short below real (continues.unfinished [] led)]
          exact inductionHypothesis rfl continues
  | @link _ _ _ _ target _ _ directory short below led inductionHypothesis =>
      cases parts with
      | nil => rcases slashes with rfl | rfl <;> cases whole
      | cons part parts =>
          obtain ⟨rfl, rfl⟩ := List.cons.inj whole
          have unfinished := continues.unfinished target.parts led
          rw [List.cons_append, walk_link directory short below unfinished continues.followed,
            ← List.append_assoc]
          exact inductionHypothesis (List.append_assoc _ _ _).symm continues

/-- What a system call takes as a path. -/
structure Passable (path : Path) : Prop where
  noZero : (0 : UInt8) ∉ path.bytes
  nonempty : path.bytes ≠ []
  short : path.bytes.length < pathLimit

theorem locate_eq_ok_iff {disk : Disk} {ending : Ending} {path : Path} {location : Location} :
    disk.locate ending path = .ok location ↔ Passable path ∧
      disk.walk ending linkLimit (start path disk.workingDirectory) path.parts = .ok location := by
  rw [locate]
  constructor
  · intro led
    split at led
    · cases led
    · split at led
      · cases led
      · split at led
        · cases led
        next noZero nonempty short =>
          refine ⟨⟨?_, ?_, Nat.lt_of_not_le short⟩, led⟩
          · simpa using noZero
          · simpa using nonempty
  · rintro ⟨passable, led⟩
    rw [if_neg (by simpa using passable.noZero), if_neg (by simpa using passable.nonempty),
      if_neg (Nat.not_le.mpr passable.short), led]

/-- What a path leads to for reading it also leads to for writing, if it is a file. -/
theorem locate_place_of_file {disk : Disk} {path : Path} {location : Location}
    (led : disk.locate .target path = .ok location)
    (file : disk.kind? location = some .file) :
    disk.locate .place path = .ok location := by
  obtain ⟨passable, walked⟩ := locate_eq_ok_iff.mp led
  have leads := leads_of_walk (by decide) (fun isEntry => by cases isEntry) walked
  have continues : disk.Continues .place [] [] location := by
    refine ⟨by simp, fun _ => ⟨rfl, by decide, ?_⟩⟩
    simp [file]
  obtain ⟨left, same⟩ := leads.walk_append (List.append_nil _).symm (.inl rfl) continues
  rw [List.append_nil, walk_nil] at same
  exact locate_eq_ok_iff.mpr ⟨passable, same⟩

theorem locate_target_of_entry {disk : Disk} {path : Path} {location : Location}
    (led : disk.locate .entry path = .ok location)
    (settled : ∀ target, disk.kind? location ≠ some (.link target)) :
    disk.locate .target path = .ok location := by
  obtain ⟨passable, walked⟩ := locate_eq_ok_iff.mp led
  have leads := leads_of_walk (by decide) (fun _ => settled) walked
  exact locate_eq_ok_iff.mpr ⟨passable, leads.walk_target⟩

theorem locate_entry_of_target {disk : Disk} {path : Path} {location : Location}
    (led : disk.locate .target path = .ok location) :
    ∃ stop, disk.locate .entry path = .ok stop ∧
      (stop = location ∨ ∃ target, disk.kind? stop = some (.link target)) := by
  obtain ⟨passable, walked⟩ := locate_eq_ok_iff.mp led
  have leads := leads_of_walk (by decide) (fun isEntry => by cases isEntry) walked
  obtain ⟨stop, stopped, reason⟩ := leads.walk_entry
  exact ⟨stop, locate_eq_ok_iff.mpr ⟨passable, stopped⟩, reason⟩

theorem inspect_eq (disk : Disk) (ending : Ending) (path : Path) :
    disk.inspect ending path =
      match disk.locate ending path with
      | .error cause => .error cause
      | .ok location =>
          match disk.entry? location with
          | some entry => .ok entry
          | none => .error (.system .noEntry) := by
  unfold inspect
  cases disk.locate ending path with
  | error cause => rfl
  | ok location =>
      simp only [bind, Except.bind]
      cases disk.entry? location <;> rfl

theorem inspect_eq_ok_iff {disk : Disk} {ending : Ending} {path : Path} {entry : Entry} :
    disk.inspect ending path = .ok entry ↔
      ∃ location, disk.locate ending path = .ok location ∧ disk.entry? location = some entry := by
  rw [inspect_eq]
  cases disk.locate ending path with
  | error cause => simp
  | ok location =>
      simp only [Except.ok.injEq, exists_eq_left']
      cases disk.entry? location <;> simp

theorem refusesPath_of_inspect {disk : Disk} {ending : Ending} {path : Path} {cause : Cause}
    (failed : disk.inspect ending path = .error cause) : cause.RefusesPath := by
  rw [inspect_eq] at failed
  split at failed
  next unlocated =>
    cases failed
    exact refusesPath_of_locate unlocated
  next =>
    split at failed <;> cases failed
    exact .system _

/-- Where paths lead the same way, there is an entry of the same kind behind both, or none. -/
theorem SameWays.inspect_cases {first second : Disk} (same : first.SameWays second)
    (ending : Ending) (path : Path) :
    (∃ cause, first.inspect ending path = .error cause ∧
      second.inspect ending path = .error cause) ∨
    ∃ location one other, first.inspect ending path = .ok one ∧
      second.inspect ending path = .ok other ∧ first.entry? location = some one ∧
      second.entry? location = some other ∧ one.kind.unlisted = other.kind.unlisted := by
  rw [inspect_eq, inspect_eq, same.locate]
  cases second.locate ending path with
  | error cause => exact .inl ⟨cause, rfl, rfl⟩
  | ok location =>
      have sameKind := same.kinds location
      unfold kind? at sameKind
      cases found : first.entry? location with
      | none =>
          cases foundToo : second.entry? location with
          | none => exact .inl ⟨.system .noEntry, by simp only [found], by simp only [foundToo]⟩
          | some other => simp [found, foundToo] at sameKind
      | some one =>
          cases foundToo : second.entry? location with
          | none => simp [found, foundToo] at sameKind
          | some other =>
              refine .inr ⟨location, one, other, ?_, ?_, found, foundToo, ?_⟩
              · simp only [found]
              · simp only [foundToo]
              · simpa [found, foundToo] using sameKind

theorem inspect_target_of_entry {disk : Disk} {path : Path} {entry : Entry}
    (inspected : disk.inspect .entry path = .ok entry) (settled : ∀ target, entry ≠ .link target) :
    disk.inspect .target path = .ok entry := by
  obtain ⟨location, led, found⟩ := inspect_eq_ok_iff.mp inspected
  refine inspect_eq_ok_iff.mpr ⟨location, locate_target_of_entry led ?_, found⟩
  intro target linked
  rw [kind?_eq_kind found] at linked
  cases entry <;> cases linked
  exact settled target rfl

theorem inspect_entry_of_target {disk : Disk} {path : Path} {entry : Entry}
    (inspected : disk.inspect .target path = .ok entry) :
    disk.inspect .entry path = .ok entry ∨
      ∃ target, disk.inspect .entry path = .ok (.link target) := by
  obtain ⟨location, led, found⟩ := inspect_eq_ok_iff.mp inspected
  obtain ⟨stop, stopped, rfl | ⟨target, linked⟩⟩ := locate_entry_of_target led
  · exact .inl (inspect_eq_ok_iff.mpr ⟨stop, stopped, found⟩)
  · obtain ⟨link, foundLink, isLink⟩ := Option.map_eq_some_iff.mp linked
    cases link <;> cases isLink
    exact .inr ⟨target, inspect_eq_ok_iff.mpr ⟨stop, stopped, foundLink⟩⟩

theorem write_of_read {disk : Disk} {path : Path} {location : Location} {old : Bytes}
    (led : disk.locate .target path = .ok location) (held : disk.content? location = some old)
    (text : String) :
    disk.write path text = .ok (disk.insert location (.file (encode text))) := by
  have found := content?_eq_some_iff.mp held
  unfold write
  rw [locate_place_of_file led (kind?_eq_kind found)]
  simp only [bind, Except.bind, found]
  rfl

end Disk

end ImportSuffix
