import ImportSuffix.Disk.Entry

/-!
How the regular files of two trees differ.
-/

namespace ImportSuffix

open Text

namespace Entry

/-- The files that an entry has and an earlier one lacks or holds with another
content, and those that only the earlier one has. -/
def changesFrom (after before : Entry) : List (Location × Option Bytes) :=
  let old := before.files []
  let new := after.files []
  (new.filter fun (location, content) => old.lookup location != some content).map
      (fun (location, content) => (location, some content)) ++
    (old.filter fun (location, _) => (new.lookup location).isNone).map
      fun (location, _) => (location, none)

end Entry

end ImportSuffix
