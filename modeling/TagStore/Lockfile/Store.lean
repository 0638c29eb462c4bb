import TagStore.Database.Failure
import TagStore.Digest
import TagStore.Disk.Write
import TagStore.Lockfile.Basic

/-!
# The content store

Making a lockfile reads the sources whose digest is not known yet and, unless the run is dry, keeps
their content in the store.
-/

namespace TagStore
namespace Lockfile

/-- Keep a content in the store of an output directory, unless something is at its place. -/
def keep (output : String) (hash : String) (content : ByteArray) : DiskStep DiskError Unit :=
  fun disk =>
    let path := Location.join output (storedAt hash)
    if Disk.isThere (disk.look path) then .ok () disk else Disk.place path content disk

/-- Read the content of a source. -/
def readSource (disk : Disk) (source : String) : Except Failure ByteArray :=
  match Source.localPath source with
  | .error error => .error (.unsupportedSource error)
  | .ok path => (disk.read path).mapError (.unreadableSource source)

/-- The digest of the content of a source, which is put into the store unless the run is dry. -/
def store (output : String) (dry : Bool) (source : String) : DiskStep Failure String := fun disk =>
  match readSource disk source with
  | .error failure => .error failure disk
  | .ok content =>
    if dry then .ok (digest content) disk
    else
      match keep output (digest content) content disk with
      | .ok _ disk => .ok (digest content) disk
      | .error error disk => .error (.disk error) disk

/-- The digest of a file: the one recorded for the same source, or else that of its content. -/
def hashOf (previous : Lockfile) (output : String) (dry : Bool) (id : String) (file : FileRecord) :
    DiskStep Failure String :=
  match previous.knownHash? id file with
  | some hash => pure hash
  | none => store output dry file.source

/-- Record some files in addition to those recorded, in order. -/
def recordAll (previous : Lockfile) (output : String) (dry : Bool) :
    List (String × FileRecord) → Lockfile → DiskStep Failure Lockfile
  | [], lockfile => pure lockfile
  | (id, file) :: rest, lockfile => do
    let hash ← hashOf previous output dry id file
    recordAll previous output dry rest ⟨lockfile.locks.insert id (lockOf file hash)⟩

/-- The lockfile of a catalog. -/
def ofCatalog (catalog : Catalog) (previous : Lockfile) (output : String) (dry : Bool) :
    DiskStep Failure Lockfile :=
  recordAll previous output dry catalog.files.entries {}

end Lockfile
end TagStore
