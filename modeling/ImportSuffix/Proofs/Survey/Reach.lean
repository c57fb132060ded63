import ImportSuffix.Proofs.Disk.Leads
import ImportSuffix.Proofs.Disk.WellFormed
import ImportSuffix.Survey.Report

/-!
What a survey reaches.

Below its root, a survey goes down through directories whose names are not excluded,
and through nothing else.  Every candidate is the path of a file that is reached in
this way, and no path is found twice.
-/

namespace ImportSuffix

open Text

/-- Valid names make no path impassable, as long as it does not get too long. -/
theorem Disk.Passable.foldl_join {root : Path} {names : Location} (passable : Disk.Passable root)
    (valid : ∀ name ∈ names, ValidName name)
    (short : (names.foldl Path.join root).bytes.length < Disk.pathLimit) :
    Disk.Passable (names.foldl Path.join root) := by
  suffices clean : (0 : UInt8) ∉ (names.foldl Path.join root).bytes ∧
      (names.foldl Path.join root).bytes ≠ [] from ⟨clean.1, clean.2, short⟩
  have noZero := passable.noZero
  have nonempty := passable.nonempty
  clear short passable
  induction names generalizing root with
  | nil => exact ⟨noZero, nonempty⟩
  | cons name rest inductionHypothesis =>
      obtain ⟨validName, validRest⟩ := List.forall_mem_cons.mp valid
      apply inductionHypothesis validRest
      · rw [Path.join_eq_below nonempty]
        cases root.endsInSeparator <;>
          simp [Path.below, noZero, validName.noZero, Path.separator]
      · exact Path.bytes_join_ne_nil nonempty name

/-- The directories on the way down from a path have paths that can be listed. -/
def Path.Listed (path : Path) (names : Location) : Prop :=
  ∀ front more, names = front ++ more → front ≠ [] → more ≠ [] →
    (front.foldl Path.join path).bytes.length < Disk.pathLimit

theorem Path.listed_singleton (path : Path) (name : Bytes) : path.Listed [name] := by
  intro front more whole start present
  have lengths := congrArg List.length whole
  have := List.length_pos_of_ne_nil start
  have := List.length_pos_of_ne_nil present
  simp only [List.length_singleton, List.length_append] at lengths
  omega

theorem Path.listed_cons_iff {path : Path} {name : Bytes} {rest : Location}
    (present : rest ≠ []) :
    path.Listed (name :: rest) ↔
      (path.join name).bytes.length < Disk.pathLimit ∧ (path.join name).Listed rest := by
  constructor
  · intro listed
    refine ⟨listed [name] rest rfl (by simp) present, ?_⟩
    rintro front more rfl _ presentMore
    exact listed (name :: front) more rfl (by simp) presentMore
  · rintro ⟨short, listedRest⟩ front more whole start presentMore
    obtain ⟨first, others, rfl⟩ := List.exists_cons_of_ne_nil start
    obtain ⟨rfl, rfl⟩ := List.cons.inj whole
    cases others with
    | nil => exact short
    | cons next behind => exact listedRest (next :: behind) more rfl (by simp) presentMore

/-- An entry below a listing, with the names that lead down to it.  Every name but the
last is that of a directory, and is not excluded. -/
inductive Listing.Reaches (excluded : ExcludedNames) : Listing → Location → Entry → Prop where
  | entry {listing name entry} :
      (name, entry) ∈ listing → Reaches excluded listing [name] entry
  | down {listing name inner rest entry} :
      (name, .directory inner) ∈ listing → excluded.contains name = false →
      Reaches excluded inner rest entry → Reaches excluded listing (name :: rest) entry

namespace Listing

section

variable {excluded : ExcludedNames} {name : Bytes} {names : Location} {entry below : Entry}
  {head : Bytes × Entry} {rest listing : Listing}

theorem Reaches.ne_nil (reached : Listing.Reaches excluded listing names entry) : names ≠ [] := by
  cases reached <;> simp

theorem Reaches.exists_head (reached : Listing.Reaches excluded listing names entry) :
    ∃ name rest, names = name :: rest ∧ name ∈ listing.map Prod.fst := by
  cases reached with
  | entry membership => exact ⟨_, [], rfl, List.mem_map_of_mem membership⟩
  | down membership _ _ => exact ⟨_, _, rfl, List.mem_map_of_mem membership⟩

theorem Reaches.mono {longer : Listing} (reached : Listing.Reaches excluded listing names entry)
    (subset : listing ⊆ longer) : Listing.Reaches excluded longer names entry := by
  cases reached with
  | entry membership => exact .entry (subset membership)
  | down membership allowed further => exact .down (subset membership) allowed further

theorem reaches_cons_iff :
    Listing.Reaches excluded (head :: rest) names entry ↔
      Listing.Reaches excluded [head] names entry ∨ Listing.Reaches excluded rest names entry := by
  constructor
  · intro reached
    cases reached with
    | entry membership =>
        rcases List.mem_cons.mp membership with rfl | later
        · exact .inl (.entry List.mem_cons_self)
        · exact .inr (.entry later)
    | down membership allowed further =>
        rcases List.mem_cons.mp membership with rfl | later
        · exact .inl (.down List.mem_cons_self allowed further)
        · exact .inr (.down later allowed further)
  · rintro (first | later)
    · exact first.mono (List.cons_subset_cons _ (List.nil_subset _))
    · exact later.mono (List.subset_cons_self _ _)

theorem reaches_singleton_iff :
    Listing.Reaches excluded [(name, below)] names entry ↔
      (names = [name] ∧ entry = below) ∨
        ∃ inner others, below = .directory inner ∧ names = name :: others ∧
          excluded.contains name = false ∧ Listing.Reaches excluded inner others entry := by
  constructor
  · intro reached
    cases reached with
    | entry membership =>
        cases List.mem_singleton.mp membership
        exact .inl ⟨rfl, rfl⟩
    | down membership allowed further =>
        cases List.mem_singleton.mp membership
        exact .inr ⟨_, _, rfl, rfl, allowed, further⟩
  · rintro (⟨rfl, rfl⟩ | ⟨inner, others, rfl, rfl, allowed, further⟩)
    · exact .entry List.mem_cons_self
    · exact .down List.mem_cons_self allowed further

/-- On the way to what a survey reaches there are only directories that it enters. -/
theorem Reaches.exists_directory {front more : Location}
    (reached : Listing.Reaches excluded listing (front ++ more) entry) (start : front ≠ [])
    (present : more ≠ []) :
    ∃ inner, Listing.Reaches excluded listing front (.directory inner) ∧
      ∀ name ∈ front, excluded.contains name = false := by
  induction front generalizing listing with
  | nil => exact absurd rfl start
  | cons name rest inductionHypothesis =>
      generalize whole : name :: rest ++ more = names at reached
      cases reached with
      | entry membership =>
          obtain ⟨_, nothing⟩ := List.cons.inj whole
          exact absurd (List.append_eq_nil_iff.mp nothing).2 present
      | @down _ _ inner _ _ membership allowed further =>
          obtain ⟨rfl, rfl⟩ := List.cons.inj whole
          cases rest with
          | nil => exact ⟨inner, .entry membership, by simpa using allowed⟩
          | cons next others =>
              obtain ⟨last, reachedLast, allowedRest⟩ := inductionHypothesis further (by simp)
              exact ⟨last, .down membership allowed reachedLast,
                List.forall_mem_cons.mpr ⟨allowed, allowedRest⟩⟩

theorem Reaches.validName (reached : Listing.Reaches excluded listing names entry)
    (wellFormed : Listing.WellFormed listing) : ∀ name ∈ names, ValidName name := by
  induction reached with
  | entry membership =>
      intro other same
      rw [List.mem_singleton.mp same]
      exact (wellFormed.of_mem membership).1
  | down membership _ _ inductionHypothesis =>
      intro other inside
      rcases List.mem_cons.mp inside with rfl | later
      · exact (wellFormed.of_mem membership).1
      · exact inductionHypothesis (wellFormed.of_mem membership).2 other later

/-- The names that lead down to an entry also lead there as the steps of a walk. -/
theorem Reaches.walk (reached : Listing.Reaches excluded listing names entry)
    (wellFormed : Listing.WellFormed listing) (real : ∀ target, entry ≠ .link target)
    {disk : Disk} {top : Location} (found : disk.entry? top = some (.directory listing))
    (ending : Disk.Ending) (links : Nat) :
    disk.walk ending links top (names.map .down) = .ok (top ++ names) := by
  induction reached generalizing top with
  | @entry listing name entry membership =>
      have below : disk.kind? (top ++ [name]) = some entry.kind := by
        rw [Disk.kind?_append_singleton found, wellFormed.lookup_eq_some_iff.mpr membership]
        rfl
      have notLink : ∀ target, entry.kind ≠ .link target := by
        intro target
        cases entry with
        | link target => exact absurd rfl (real target)
        | _ => simp [Entry.kind]
      have short := (wellFormed.of_mem membership).1.short
      rw [List.map_cons, List.map_nil,
        Disk.walk_down (Disk.kind?_eq_kind found) short below notLink (by simp)]
      exact Disk.walk_nil
  | @down listing name inner rest entry membership _ further inductionHypothesis =>
      have below : disk.entry? (top ++ [name]) = some (.directory inner) := by
        rw [Disk.entry?_append_singleton found, wellFormed.lookup_eq_some_iff.mpr membership]
      obtain ⟨valid, wellFormedBelow⟩ := wellFormed.of_mem membership
      rw [List.map_cons,
        Disk.walk_down (Disk.kind?_eq_kind found) valid.short (Disk.kind?_eq_kind below)
          (by simp [Entry.kind]) (by simp),
        inductionHypothesis wellFormedBelow real below, List.append_assoc]
      rfl

/-- Joined to the path of a directory, the names lead to the entry from outside. -/
theorem Reaches.locate (reached : Listing.Reaches excluded listing names entry)
    (wellFormed : Listing.WellFormed listing) (real : ∀ target, entry ≠ .link target)
    {disk : Disk} {root : Path} {top : Location} (led : disk.locate .target root = .ok top)
    (found : disk.entry? top = some (.directory listing)) {ending : Disk.Ending}
    (passable : Disk.Passable (names.foldl Path.join root)) :
    disk.locate ending (names.foldl Path.join root) = .ok (top ++ names) := by
  obtain ⟨passableRoot, walked⟩ := Disk.locate_eq_ok_iff.mp led
  have leads := Disk.leads_of_walk (by decide) (fun isEntry => by cases isEntry) walked
  have valid := reached.validName wellFormed
  have ahead : names.map Part.down ≠ [] := by simp [reached.ne_nil]
  have continues : disk.Continues ending (if root.endsInSeparator then [.trailing] else [])
      (names.map .down) top := by
    refine ⟨?_, fun nothing => absurd nothing ahead⟩
    cases names <;> simp
  obtain ⟨left, same⟩ := leads.walk_append root.parts_eq (by split <;> simp) continues
  refine Disk.locate_eq_ok_iff.mpr ⟨passable, ?_⟩
  rw [Disk.start, Path.isAbsolute_foldl_join passableRoot.nonempty, ← Disk.start,
    Path.parts_foldl_join valid reached.ne_nil, same]
  exact reached.walk wellFormed real found ending left

end

end Listing

end ImportSuffix
