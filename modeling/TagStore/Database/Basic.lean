import TagStore.Catalog.Format
import TagStore.Database.Failure
import TagStore.Lockfile.Format

/-!
# Databases

A database is a catalog with the lockfile beside it.  The directory that both are in is the output
directory, which also has the store and the links.
-/

namespace TagStore

/-- The name of the lockfile in its directory. -/
def lockfileName : String := "lockfile.json"

/-- A catalog and its lockfile, and where they are. -/
structure Database where
  /-- The catalog. -/
  catalog : Catalog
  /-- The lockfile. -/
  lockfile : Lockfile
  /-- The path of the catalog. -/
  catalogPath : String
  deriving DecidableEq

namespace Database

/-- The directory of a catalog. -/
def outputOf (catalogPath : String) : String :=
  match Location.parent? catalogPath with
  | some "" | none => "."
  | some directory => directory

/-- The lockfile that belongs to a catalog. -/
def lockfileOf (catalogPath : String) : String :=
  Location.join (outputOf catalogPath) lockfileName

/-- Load a file; where there is none, something empty is taken. -/
def load {α : Type} (disk : Disk) (path : String) (empty : α)
    (ofBytes : ByteArray → Except Json.Flaw α) : Except Failure α :=
  match disk.read path with
  | .ok bytes => (ofBytes bytes).mapError .json
  | .error .notFound => .ok empty
  | .error error => .error (.disk error)

/-- Load a catalog. -/
def loadCatalog (disk : Disk) (path : String) : Except Failure Catalog :=
  load disk path {} Catalog.ofBytes

/-- Load a lockfile. -/
def loadLockfile (disk : Disk) (path : String) : Except Failure Lockfile :=
  load disk path {} Lockfile.ofBytes

/-- Load a catalog and its lockfile. -/
def «open» (disk : Disk) (catalogPath : String) : Except Failure Database := do
  let catalog ← loadCatalog disk catalogPath
  let lockfile ← loadLockfile disk (lockfileOf catalogPath)
  pure ⟨catalog, lockfile, catalogPath⟩

/-- The output directory. -/
def output (database : Database) : String := outputOf database.catalogPath

end Database

end TagStore
