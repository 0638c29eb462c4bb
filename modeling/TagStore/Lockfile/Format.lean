import TagStore.Json.Printer
import TagStore.Json.Reader
import TagStore.Lockfile.Basic

/-!
# The file format of lockfiles

A lockfile is an object whose member `file_locks` has the records under the identifiers of their
files.  A record has the members `source`, `hash` and `tags`, a list of written tags.  A lockfile is
written without spaces.
-/

namespace TagStore

namespace Lock

/-- The written form of a record. -/
def toJson (lock : Lock) : Json :=
  .object [("source", .text lock.source), ("hash", .text lock.hash),
    ("tags", .array (lock.tags.map fun tag => .text tag.toText))]

/-- A record of which some fields have been read. -/
structure Draft where
  /-- The source, once it is known. -/
  source : Option String := none
  /-- The digest, once it is known. -/
  hash : Option String := none
  /-- The tags, once they are known. -/
  tags : Option (List Tag) := none

/-- The record, if nothing needed is missing. -/
def Draft.finish? (draft : Draft) : Option Lock :=
  match draft.source, draft.hash with
  | some source, some hash => some ⟨source, hash, draft.tags.getD []⟩
  | _, _ => none

/-- Take a record. -/
def reader : Json.Reader Lock :=
  Json.Reader.record
    [⟨"source", (·.source.isSome), fun draft => do
        pure { draft with source := some (← Json.Reader.text) }⟩,
      ⟨"hash", (·.hash.isSome), fun draft => do
        pure { draft with hash := some (← Json.Reader.text) }⟩,
      ⟨"tags", (·.tags.isSome), fun draft => do
        let tags ← Json.Reader.list Json.Reader.text
        pure { draft with tags := some (tags.map Tag.ofText) }⟩]
    {} Draft.finish?

end Lock

namespace Lockfile

/-- The written form of a lockfile. -/
def toJson (lockfile : Lockfile) : Json :=
  .object [("file_locks", .object (lockfile.locks.entries.map fun (id, lock) => (id, lock.toJson)))]

/-- The text of a lockfile. -/
def toText (lockfile : Lockfile) : String := lockfile.toJson.compact

/-- Take a lockfile. -/
def reader : Json.Reader Lockfile :=
  Json.Reader.record
    [⟨"file_locks", Option.isSome, fun _ => do
        pure (some (Index.ofList (← Json.Reader.dictionary Lock.reader)))⟩]
    (none : Option (Index String Lock)) fun locks => locks.map Lockfile.mk

/-- Read a lockfile. -/
def ofBytes (bytes : ByteArray) : Except Json.Flaw Lockfile := Json.Reader.document reader bytes

end Lockfile
end TagStore
