import TagStore.Lockfile.Basic

/-!
# Links

Every tag of a file gives a link to the stored content.  A link stands in the directory named by the
segments and the value of the tag and bears the identifier of the file as its name.
-/

namespace TagStore

/-- A text without the characters that separate directories. -/
def linkSegment (text : String) : String :=
  text.map fun c => if c = '/' || c = '\\' then '_' else c

/-- The path of the link that a tag gives to the file with an identifier. -/
def linkPath (id : String) (tag : Tag) : String :=
  "/".intercalate ((tag.path ++ tag.value.toList ++ [id]).map linkSegment)

/-- The links that should be there, seen from the output directory. -/
structure LinkTable where
  /-- The paths of the links to each stored file, by the path of the stored file. -/
  links : Index String (List String) := ∅
  deriving DecidableEq

namespace LinkTable

/-- The paths of the links to the content of a file. -/
def paths (lock : Lock) (id : String) : List String := lock.tags.map (linkPath id)

/-- The links to a stored file; there are none to one that is not listed. -/
def of (table : LinkTable) (stored : String) : List String := (table.links.get? stored).getD []

/-- The table with further links to a stored file. -/
def extend (table : LinkTable) (stored : String) (paths : List String) : LinkTable :=
  ⟨table.links.insert stored (table.of stored ++ paths)⟩

/-- The links of all files of a lockfile; files with equal content share their stored file. -/
def ofLockfile (lockfile : Lockfile) : LinkTable :=
  lockfile.locks.entries.foldl
    (fun table (id, lock) => table.extend (Lockfile.storedAt lock.hash) (paths lock id)) {}

end LinkTable
end TagStore
