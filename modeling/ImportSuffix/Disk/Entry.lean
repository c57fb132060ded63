import ImportSuffix.Path

/-!
Trees of files.

A directory lists its entries in some order, which a walk follows.  A
`Location` is the list of names that leads from a directory down to an entry
without passing through a link; `Entry.at?` is the entry there.
-/

namespace ImportSuffix

open Text

/-- What a name in a directory stands for. -/
inductive Entry where
  | file (content : Bytes)
  /-- A directory with its entries in the order in which it lists them. -/
  | directory (listing : List (Bytes × Entry))
  | link (target : Path)
  | pipe

abbrev Listing := List (Bytes × Entry)

/-- The names that lead down to an entry. -/
abbrev Location := List Bytes

def Location.path (location : Location) : Path :=
  location.foldl Path.join ⟨[Path.separator]⟩

/-- The names on a path: the location to which it leads from the top, unless it
goes up or through a link. -/
def Path.names (path : Path) : Location :=
  path.parts.filterMap fun part =>
    match part with
    | .down name => some name
    | .here | .up | .trailing => none

/-- Give the entry of a name another value.  A new name comes last. -/
def Listing.update (name : Bytes) (change : Option Entry → Entry) : Listing → Listing
  | [] => [(name, change none)]
  | (other, entry) :: rest =>
      if other = name then (other, change (some entry)) :: rest
      else (other, entry) :: Listing.update name change rest

theorem Listing.lookup_update (name : Bytes) (change : Option Entry → Entry)
    (listing : Listing) :
    (Listing.update name change listing).lookup name = some (change (listing.lookup name)) := by
  induction listing with
  | nil => simp [update]
  | cons head rest inductionHypothesis =>
      obtain ⟨other, entry⟩ := head
      by_cases same : other = name
      · simp [update, same]
      · have differs : (name == other) = false := by simpa using Ne.symm same
        simp [update, same, List.lookup_cons, differs, inductionHypothesis]

theorem Listing.lookup_update_ne {name other : Bytes} (differs : other ≠ name)
    (change : Option Entry → Entry) (listing : Listing) :
    (Listing.update name change listing).lookup other = listing.lookup other := by
  induction listing with
  | nil => simp [update, List.lookup_cons, beq_false_of_ne differs]
  | cons head rest inductionHypothesis =>
      obtain ⟨first, entry⟩ := head
      by_cases same : first = name
      · simp [update, same, List.lookup_cons, beq_false_of_ne differs]
      · simp [update, same, List.lookup_cons, inductionHypothesis]

namespace Entry

def isDirectory : Entry → Bool
  | directory _ => true
  | _ => false

def at? : Entry → Location → Option Entry
  | entry, [] => some entry
  | directory listing, name :: rest => (listing.lookup name).bind fun entry => entry.at? rest
  | _, _ :: _ => none

/-- Put an entry at a location, in directories that are made where none is. -/
def insert (new : Entry) : Entry → Location → Entry
  | _, [] => new
  | directory listing, name :: rest =>
      directory (Listing.update name (fun old => insert new (old.getD (directory [])) rest) listing)
  | entry, _ :: _ => entry

mutual

/-- The regular files below an entry, each with its location and content. -/
def files (here : Location) : Entry → List (Location × Bytes)
  | file content => [(here, content)]
  | directory listing => filesOfListing here listing
  | link _ | pipe => []

def filesOfListing (here : Location) : Listing → List (Location × Bytes)
  | [] => []
  | (name, entry) :: rest => files (here ++ [name]) entry ++ filesOfListing here rest

end

@[simp] theorem at?_nil (entry : Entry) : entry.at? [] = some entry := by
  cases entry <;> rfl

theorem at?_append (entry : Entry) (first second : Location) :
    entry.at? (first ++ second) = (entry.at? first).bind fun entry => entry.at? second := by
  induction first generalizing entry with
  | nil => simp
  | cons name rest inductionHypothesis =>
      cases entry with
      | directory listing =>
          simp only [List.cons_append, at?]
          cases listing.lookup name with
          | none => rfl
          | some below => exact inductionHypothesis below
      | _ => rfl

end Entry

end ImportSuffix
