import ImportSuffix.Settings.ExcludedNames
import Mathlib.Data.List.Induction
import Mathlib.Data.List.Nodup
import Mathlib.Data.List.Perm.Subperm

/-!
The names to exclude as an ordered set.

A list can be listed without its repeats in many orders, but in only one in which every name
stands where the list has it first.  Adding a name keeps a set in that order, so a set that is
made again from its own names, or from two lists one after the other, is known from the order
alone.
-/

namespace ImportSuffix

open Text

namespace ExcludedNames

variable {given others names : List String} {first second set : ExcludedNames}

/-- The names of a list, in the order in which the list has them first. -/
structure ListsFirst (given names : List String) : Prop where
  members : ∀ name, name ∈ names ↔ name ∈ given
  ordered : names.Pairwise fun earlier later => given.idxOf earlier < given.idxOf later

theorem ListsFirst.nodup (lists : ListsFirst given names) : names.Nodup := by
  apply lists.ordered.imp
  rintro earlier _ before rfl
  exact Nat.lt_irrefl _ before

theorem ListsFirst.unique (lists : ListsFirst given names) (likewise : ListsFirst given others) :
    names = others := by
  have sameNames : names.Perm others := by
    rw [List.perm_ext_iff_of_nodup lists.nodup likewise.nodup]
    intro name
    rw [lists.members, likewise.members]
  apply sameNames.eq_of_pairwise ?_ lists.ordered likewise.ordered
  intro earlier later _ _ before after
  exact absurd before (Nat.lt_asymm after)

theorem listsFirst_of_nodup (distinct : names.Nodup) : ListsFirst names names where
  members _ := Iff.rfl
  ordered := by
    rw [List.pairwise_iff_getElem]
    intro earlier later _ _ before
    rwa [distinct.idxOf_getElem, distinct.idxOf_getElem]

/-- Of a second list, those names follow that the first one does not have. -/
theorem ListsFirst.append {more moreNames : List String} (lists : ListsFirst given names)
    (listsMore : ListsFirst more moreNames) :
    ListsFirst (given ++ more) (names ++ moreNames.filter (· ∉ given)) where
  members name := by
    rw [List.mem_append, List.mem_append, List.mem_filter, decide_eq_true_iff, lists.members,
      listsMore.members]
    tauto
  ordered := by
    have isNew : ∀ name ∈ moreNames.filter (· ∉ given), name ∉ given := fun name membership =>
      of_decide_eq_true (List.mem_filter.mp membership).2
    rw [List.pairwise_append]
    refine ⟨?_, ?_, ?_⟩
    · apply lists.ordered.imp_of_mem
      intro earlier later inNames inNamesToo before
      rwa [List.idxOf_append_of_mem ((lists.members _).mp inNames),
        List.idxOf_append_of_mem ((lists.members _).mp inNamesToo)]
    · -- The places of new names all move by the length of the first list.
      apply (listsMore.ordered.filter _).imp_of_mem
      intro earlier later inMore inMoreToo before
      rw [List.idxOf_append_of_notMem (isNew _ inMore),
        List.idxOf_append_of_notMem (isNew _ inMoreToo)]
      exact Nat.add_lt_add_left before _
    · intro earlier inNames later inMore
      have inGiven : earlier ∈ given := (lists.members _).mp inNames
      rw [List.idxOf_append_of_mem inGiven, List.idxOf_append_of_notMem (isNew _ inMore)]
      exact Nat.lt_add_right _ (List.idxOf_lt_length_of_mem inGiven)

theorem ListsFirst.insert (lists : ListsFirst given set.names) (name : String) :
    ListsFirst (given ++ [name]) (set.insert name).names := by
  have alone : ListsFirst [name] [name] := listsFirst_of_nodup (List.nodup_singleton name)
  have extended := lists.append alone
  have present := lists.members name
  rw [names_insert]
  split
  next inSet => simpa [present.mp inSet] using extended
  next absent => simpa [mt present.mpr absent] using extended

theorem listsFirst_ofList (given : List String) : ListsFirst given (ofList given).names := by
  induction given using List.reverseRecOn with
  | nil => exact listsFirst_of_nodup List.nodup_nil
  | append_singleton given name inductionHypothesis =>
      rw [ofList_append_singleton]
      exact inductionHypothesis.insert name

/-- Names stay at the place at which they are given first. -/
theorem names_ofList (names : List String) : (ofList names).names = names.eraseDups := by
  induction names using List.reverseRecOn with
  | nil => rfl
  | append_singleton names name inductionHypothesis =>
      rw [ofList_append_singleton, names_insert, inductionHypothesis, List.eraseDups_append]
      by_cases present : name ∈ names <;>
        simp [List.removeAll, List.mem_eraseDups, List.eraseDups_cons, present]

theorem names_ofList_append (first second : List String) :
    (ofList (first ++ second)).names =
      (ofList first).names ++ (ofList second).names.filter (· ∉ first) :=
  (listsFirst_ofList (first ++ second)).unique
    ((listsFirst_ofList first).append (listsFirst_ofList second))

theorem eq_of_names_eq (same : first.names = second.names) : first = second := by
  cases first
  cases same
  rfl

/-- The names that a set lists make that set again. -/
theorem ofList_names (set : ExcludedNames) : ofList set.names = set :=
  eq_of_names_eq ((listsFirst_ofList set.names).unique (listsFirst_of_nodup set.distinct))

theorem contains_encode_iff {name : String} :
    set.contains (encode name) = true ↔ name ∈ set.names := by
  rw [contains_iff, decode?_encode]
  simp

theorem contains_iff_encode {name : Bytes} :
    set.contains name = true ↔
      (∃ text, decode? name = some text) ∧ ∃ member ∈ set.names, encode member = name := by
  rw [contains_iff]
  constructor
  · rintro ⟨member, inSet, decoded⟩
    exact ⟨⟨member, decoded⟩, member, inSet, encode_of_decode? decoded⟩
  · rintro ⟨_, member, inSet, rfl⟩
    exact ⟨member, inSet, decode?_encode member⟩

theorem contains_congr (same : ∀ name, name ∈ first.names ↔ name ∈ second.names) (name : Bytes) :
    first.contains name = second.contains name := by
  rw [Bool.eq_iff_iff, contains_iff, contains_iff]
  simp only [same]

theorem forall_contains_eq_iff :
    (∀ name, first.contains name = second.contains name) ↔
      ∀ name, name ∈ first.names ↔ name ∈ second.names := by
  constructor
  · intro agree name
    rw [← contains_encode_iff, agree, contains_encode_iff]
  · exact contains_congr

theorem contains_ofList_append (first second : List String) (name : Bytes) :
    (ofList (first ++ second)).contains name =
      ((ofList first).contains name || (ofList second).contains name) := by
  rw [Bool.eq_iff_iff, Bool.or_eq_true, contains_iff, contains_iff, contains_iff]
  simp only [mem_ofList, List.mem_append, or_and_right, exists_or]

/-- Sets that compare as equal have the same members. -/
theorem mem_iff_of_beq (equal : (first == second) = true) (name : String) :
    name ∈ first.names ↔ name ∈ second.names := by
  obtain ⟨inSecond, inFirst⟩ := Bool.and_eq_true_iff.mp equal
  constructor
  · intro membership
    exact of_decide_eq_true (List.all_eq_true.mp inSecond name membership)
  · intro membership
    exact of_decide_eq_true (List.all_eq_true.mp inFirst name membership)

theorem beq_iff :
    (first == second) = true ↔ ∀ name, name ∈ first.names ↔ name ∈ second.names := by
  refine ⟨mem_iff_of_beq, fun same => Bool.and_eq_true_iff.mpr ⟨?_, ?_⟩⟩
  · exact List.all_eq_true.mpr fun name membership => decide_eq_true ((same name).mp membership)
  · exact List.all_eq_true.mpr fun name membership => decide_eq_true ((same name).mpr membership)

/-- Equal sets list the same names in some order. -/
theorem beq_iff_perm : (first == second) = true ↔ first.names.Perm second.names := by
  rw [beq_iff, List.perm_ext_iff_of_nodup first.distinct second.distinct]

/-- Of sets that are as large as each other, one lies within the other only if they are equal. -/
theorem beq_iff_length_eq : (first == second) = true ↔
    first.names.length = second.names.length ∧ first.names ⊆ second.names := by
  rw [beq_iff_perm]
  constructor
  · exact fun same => ⟨same.length_eq, same.subset⟩
  · rintro ⟨asLarge, within⟩
    have contained := List.subperm_of_subset first.distinct within
    exact contained.perm_of_length_le (Nat.le_of_eq asLarge.symm)

/-- A list of names leads to an ordered set.  The set lists each of the names once, where it is
given first; it contains what is one of them byte for byte; the names that it lists make it
again; of a longer list it goes on with the names that are new.  Two sets that are as large as
each other are equal if one lies within the other, which is so exactly if they have the same
members, however these are given. -/
theorem ofList_orderedSet (first second : List String) :
    (ofList first).names.Nodup ∧ ListsFirst first (ofList first).names ∧
    (∀ name, (ofList first).contains name = true ↔
      (∃ text, decode? name = some text) ∧
        ∃ member ∈ (ofList first).names, encode member = name) ∧
    (ofList (ofList first).names).names = (ofList first).names ∧
    (ofList (ofList first).names).display = (ofList first).display ∧
    (ofList (first ++ second)).names =
      (ofList first).names ++ (ofList second).names.filter (· ∉ first) ∧
    ((ofList first == ofList second) = true ↔
      (ofList first).names.length = (ofList second).names.length ∧
        (ofList first).names ⊆ (ofList second).names) ∧
    ((ofList first == ofList second) = true ↔ ∀ name, name ∈ first ↔ name ∈ second) ∧
    ((∀ name, name ∈ first ↔ name ∈ second) ↔
      ∀ name, (ofList first).contains name = (ofList second).contains name) := by
  have lists := listsFirst_ofList first
  have again := ofList_names (ofList first)
  refine ⟨lists.nodup, lists, fun name => contains_iff_encode, congrArg names again,
    congrArg display again, names_ofList_append first second, beq_iff_length_eq, ?_, ?_⟩
  · simp only [beq_iff, mem_ofList]
  · simp only [forall_contains_eq_iff, mem_ofList]

example : (ofList ["node_modules", "dist", "node_modules", "build"]).display =
    "node_modules, dist, build" := by
  decide

end ExcludedNames

end ImportSuffix
