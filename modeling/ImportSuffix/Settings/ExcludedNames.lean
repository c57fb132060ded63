import ImportSuffix.Text.Utf8

/-!
The names of directories that a walk leaves out: an ordered set.  Names keep the
order in which they were first given.
-/

namespace ImportSuffix

open Text

/-- Directory names without repeats. -/
structure ExcludedNames where
  names : List String
  distinct : names.Nodup

namespace ExcludedNames

def empty : ExcludedNames := ⟨[], List.nodup_nil⟩

/-- Add a name behind the others, unless it is one of them. -/
def insert (set : ExcludedNames) (name : String) : ExcludedNames :=
  if absent : name ∈ set.names then set
  else ⟨set.names ++ [name], List.nodup_append.mpr ⟨set.distinct, by simp, by
    rintro member inSet _ last rfl
    exact absent (List.mem_singleton.mp last ▸ inSet)⟩⟩

/-- The set of some names, each at its first place. -/
def ofList (names : List String) : ExcludedNames := names.foldl insert empty

/-- Whether a directory of this name is left out.  A name that is no text is
equal to none in the set. -/
def contains (set : ExcludedNames) (name : Bytes) : Bool :=
  set.names.any fun member => encode member == name

def isEmpty (set : ExcludedNames) : Bool := set.names.isEmpty

def display (set : ExcludedNames) : String := ", ".intercalate set.names

/-- Two sets are the same when they have the same members, in whatever order. -/
instance : BEq ExcludedNames where
  beq first second :=
    first.names.all (· ∈ second.names) && second.names.all (· ∈ first.names)

@[simp] theorem names_insert (set : ExcludedNames) (name : String) :
    (set.insert name).names =
      if name ∈ set.names then set.names else set.names ++ [name] := by
  unfold insert
  split <;> simp_all

theorem ofList_append_singleton (names : List String) (name : String) :
    ofList (names ++ [name]) = (ofList names).insert name := by
  simp [ofList]

theorem mem_ofList {names : List String} {name : String} :
    name ∈ (ofList names).names ↔ name ∈ names := by
  suffices ∀ set : ExcludedNames,
      name ∈ (names.foldl insert set).names ↔ name ∈ set.names ∨ name ∈ names by
    simpa [ofList, empty] using this empty
  induction names with
  | nil => simp
  | cons first rest inductionHypothesis =>
      intro set
      simp only [List.foldl_cons, inductionHypothesis, names_insert, List.mem_cons]
      by_cases present : first ∈ set.names
      · rw [if_pos present]
        constructor
        · rintro (old | new) <;> simp [*]
        · rintro (old | rfl | new) <;> simp [*]
      · simp [present, or_assoc]

theorem contains_iff {set : ExcludedNames} {name : Bytes} :
    set.contains name = true ↔ ∃ member ∈ set.names, decode? name = some member := by
  simp only [contains, List.any_eq_true, beq_iff_eq]
  constructor
  · rintro ⟨member, inSet, rfl⟩
    exact ⟨member, inSet, decode?_encode member⟩
  · rintro ⟨member, inSet, decoded⟩
    exact ⟨member, inSet, encode_of_decode? decoded⟩

end ExcludedNames

end ImportSuffix
