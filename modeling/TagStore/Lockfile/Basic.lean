import TagStore.Catalog.Basic

/-!
# Lockfiles

A lockfile records, for each file of a catalog, the source that was read, the digest of what was
read there, and the tags of the file.  The content is kept in a store under its digest.
-/

namespace TagStore

/-- What is recorded of a file. -/
structure Lock where
  /-- Where the content was read. -/
  source : String
  /-- The digest of the content. -/
  hash : String
  /-- The tags of the file. -/
  tags : List Tag := []
  deriving DecidableEq

/-- The records of all files. -/
structure Lockfile where
  /-- Each record under the identifier of its file. -/
  locks : Index String Lock := ∅
  deriving DecidableEq

namespace Lockfile

/-- Where the content with a digest is kept, seen from the output directory. -/
def storedAt (hash : String) : String := ".hash/" ++ hash

/-- The digest recorded for a file, if it was read from the same source. -/
def knownHash? (previous : Lockfile) (id : String) (file : FileRecord) : Option String :=
  (previous.locks.get? id).bind fun lock =>
    if lock.source = file.source then some lock.hash else none

/-- The record of a file whose digest is known. -/
def lockOf (file : FileRecord) (hash : String) : Lock := ⟨file.source, hash, file.tags⟩

end Lockfile

end TagStore
