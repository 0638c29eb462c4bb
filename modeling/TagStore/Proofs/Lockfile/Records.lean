import TagStore.Proofs.Catalog.Tidy
import TagStore.Proofs.Links.Changes
import TagStore.Proofs.Lockfile.Format
import TagStore.Proofs.Lockfile.Store

/-!
# Lockfiles of catalogs

A lockfile of a catalog has a record of each of its files and no others.  The digests in it were
known before, or they have been learnt from contents.
-/

namespace TagStore

open Location (IsName)

namespace Lockfile

variable {lockfile : Lockfile} {catalog : Catalog}

/-- A lockfile has a record of each file of a catalog and no others. -/
def Records (lockfile : Lockfile) (catalog : Catalog) : Prop :=
  ∃ hashes : String → String,
    lockfile.locks = catalog.files.map fun id file => lockOf file (hashes id)

theorem records_empty : ({} : Lockfile).Records {} := ⟨id, rfl⟩

theorem Records.lock_eq (records : lockfile.Records catalog) {id : String} {lock : Lock}
    (found : lockfile.locks.get? id = some lock) :
    ∃ file, catalog.files.get? id = some file ∧ lock = lockOf file lock.hash := by
  obtain ⟨hashes, locks⟩ := records
  rw [locks, Index.get?_map, Option.map_eq_some_iff] at found
  obtain ⟨file, there, rfl⟩ := found
  exact ⟨file, there, rfl⟩

/-- The lockfile that a catalog has is made again, and no source is read for it. -/
theorem Records.ofCatalog_eq (records : lockfile.Records catalog) (output : String) (dry : Bool)
    (disk : Disk) : ofCatalog catalog lockfile output dry disk = .ok lockfile disk := by
  obtain ⟨hashes, locks⟩ := records
  have known (id : String) (file : FileRecord) (found : catalog.files.get? id = some file) :
      lockfile.knownHash? id file = some (hashes id) := by
    refine knownHash?_eq_some_iff.mpr ⟨lockOf file (hashes id), ?_, rfl, rfl⟩
    rw [locks, Index.get?_map, found]
    rfl
  rw [ofCatalog_of_hashOf fun id file found => hashOf_known (known id file found) output dry disk,
    ← locks]

/-- The lockfile of a tidy catalog is tidy. -/
theorem Records.isTidy (records : lockfile.Records catalog) (tidy : catalog.IsTidy)
    (isName : ∀ hash, lockfile.Has hash → IsName hash) : lockfile.IsTidy where
  word := by
    intro id lock found
    obtain ⟨file, there, -⟩ := records.lock_eq found
    exact (tidy id file there).1
  hash := by
    intro id lock found
    exact isName lock.hash ⟨id, lock, found, rfl⟩
  linkable := by
    intro id lock found tag listed
    obtain ⟨file, there, same⟩ := records.lock_eq found
    rw [same] at listed
    exact (tidy id file there).2.linkable listed

theorem IsTidy.isPlain (tidy : lockfile.IsTidy) : lockfile.IsPlain := by
  intro entry member tag listed
  exact (tidy.linkable (Index.get?_eq_some_iff.mpr member) tag listed).isPlain

/-! ## Digests that are called for -/

variable {previous : Lockfile} {hashes : String → String} {hash : String}

theorem has_iff_of_locks_eq
    (locks : lockfile.locks = catalog.files.map fun id file => lockOf file (hashes id)) :
    lockfile.Has hash ↔ ∃ entry ∈ catalog.files.entries, hashes entry.1 = hash := by
  simp only [Has, locks, Index.get?_map, Option.map_eq_some_iff]
  constructor
  · rintro ⟨id, _, ⟨file, there, rfl⟩, same⟩
    exact ⟨(id, file), Index.get?_eq_some_iff.mp there, same⟩
  · rintro ⟨⟨id, file⟩, member, same⟩
    exact ⟨id, _, ⟨file, Index.get?_eq_some_iff.mpr member, rfl⟩, same⟩

theorem has_of_knownHash? {id : String} {file : FileRecord}
    (known : previous.knownHash? id file = some hash) : previous.Has hash := by
  obtain ⟨lock, found, -, same⟩ := knownHash?_eq_some_iff.mp known
  exact ⟨id, lock, found, same⟩

/-- A digest that is called for was known, or else it has been learnt from a content. -/
theorem Digests.cases {files : List (String × FileRecord)} (digests : Digests previous hashes files)
    {entry : String × FileRecord} (member : entry ∈ files) :
    previous.Has (hashes entry.1) ∨
      Learns previous hashes files (hashes entry.1) ∧
        ∃ content, hashes entry.1 = digest content := by
  rcases digests entry member with known | ⟨unknown, digested⟩
  · exact .inl (has_of_knownHash? known)
  · exact .inr ⟨⟨entry, member, unknown, rfl⟩, digested⟩

end Lockfile

end TagStore
