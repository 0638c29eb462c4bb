import TagStore.Proofs.Database.Kept
import TagStore.Proofs.Links.Shields
import TagStore.Proofs.Lockfile.Reread
import TagStore.Proofs.Lockfile.Stow

/-!
# What a lockfile relies on

A lockfile relies on the contents with its digests.  Nothing that a command does before it saves the
lockfile takes a content out of the store, except for those that go with the changes, as long as no
name of a link is that of a file of the database or a digest.
-/

namespace TagStore

open Disk (storeName)
open Database (catalogName reservedNames)

/-! ## Reserved names -/

/-- The name of the store, of a file of the database or of a stored content. -/
def IsReserved (name : String) : Prop :=
  name = storeName ∨ name ∈ reservedNames ∨ ∃ content, name = digest content

theorem isReserved_storeName : IsReserved storeName := .inl rfl

theorem isReserved_lockfileName : IsReserved lockfileName := .inr (.inl (by decide))

theorem isReserved_catalogName : IsReserved catalogName := .inr (.inl (by decide))

theorem isReserved_digest (content : ByteArray) : IsReserved (digest content) :=
  .inr (.inr ⟨content, rfl⟩)

theorem not_isReserved {name : String} (store : name ≠ storeName) (file : name ∉ reservedNames)
    (length : name.length ≠ 64) : ¬IsReserved name := by
  rintro (same | among | ⟨content, rfl⟩)
  · exact store same
  · exact file among
  · exact length (length_digest content)

namespace Disk

variable {disk between after : Disk} {gone : String → Prop} {name : String} {content : ByteArray}

theorem IsStored.exists_digest {hash : String} (stored : disk.IsStored hash) :
    ∃ content, hash = digest content := by
  obtain ⟨content, -, digested⟩ := stored
  exact ⟨content, digested.symm⟩

/-! ## Guarding -/

/-- The store still has the contents that do not go, and the lockfile is as it was. -/
structure Guards (gone : String → Prop) (before after : Disk) : Prop where
  hasStore : after.HasStore
  home : after.home = before.home
  stored : ∀ hash, ¬gone hash → before.IsStored hash → after.IsStored hash
  lockfile : after.node? (before.home ++ [lockfileName]) =
    before.node? (before.home ++ [lockfileName])

theorem Guards.refl (hasStore : disk.HasStore) : Guards gone disk disk :=
  ⟨hasStore, rfl, fun _ _ stored => stored, rfl⟩

theorem Guards.trans (first : Guards gone disk between) (second : Guards gone between after) :
    Guards gone disk after where
  hasStore := second.hasStore
  home := second.home.trans first.home
  stored := fun hash stays stored => second.stored hash stays (first.stored hash stays stored)
  lockfile := by
    rw [← first.lockfile, ← first.home]
    exact second.lockfile

theorem not_isStorePlace (home : Place) (apart : name ≠ storeName) :
    ¬IsStorePlace home (home ++ [name]) := by
  rintro (same | ⟨content, same⟩)
  · simp [apart] at same
  · simp at same

theorem Stows.guards (stows : disk.Stows after) : Guards gone disk after where
  hasStore := stows.hasStore
  home := stows.home
  stored := fun _ _ => stows.isStored
  lockfile := stows.node?_eq (not_isStorePlace disk.home (by decide))

/-- Only digests go. -/
def GoDigests (gone : String → Prop) : Prop := ∀ name, gone name → ∃ content, name = digest content

theorem Shields.node?_name (shields : disk.Shields IsReserved gone after) (go : GoDigests gone)
    (isReserved : IsReserved name) (other : ¬Tag.Edit.isWord name) (place : Place) :
    after.node? (place ++ [name]) = disk.node? (place ++ [name]) := by
  refine (shields.nodes place name isReserved).resolve_right fun ⟨goes, _⟩ => ?_
  obtain ⟨content, rfl⟩ := go name goes
  exact other (isWord_digest content)

theorem Shields.guards (shields : disk.Shields IsReserved gone after) (go : GoDigests gone)
    (hasStore : disk.HasStore) : Guards gone disk after where
  home := shields.home
  lockfile := shields.node?_name go isReserved_lockfileName (by decide) disk.home
  stored := by
    rintro hash stays ⟨content, there, rfl⟩
    refine ⟨content, ?_, rfl⟩
    rw [shields.home, ← there, List.append_cons]
    refine (shields.nodes _ _ (isReserved_digest content)).resolve_right fun ⟨goes, _⟩ => ?_
    exact stays goes
  hasStore := by
    refine ⟨shields.rooted, fun node there => ?_, fun content node there => ?_⟩
    · rw [shields.home, shields.node?_name go isReserved_storeName (by decide)] at there
      exact hasStore.store node there
    · rw [shields.home, List.append_cons] at there
      rcases shields.nodes _ _ (isReserved_digest content) with same | ⟨-, none⟩
      · rw [same, ← List.append_cons] at there
        exact hasStore.addressed content node there
      · rw [none] at there
        cases there

/-- A file beside the store leaves the store as it is. -/
theorem HasStore.put_file (hasStore : disk.HasStore) (apart : name ≠ storeName)
    (other : disk.node? (disk.home ++ [name]) ≠ some .directory) (content : ByteArray) :
    (disk.put (disk.home ++ [name]) (.file content)).HasStore ∧
      ∀ hash, disk.IsStored hash →
        (disk.put (disk.home ++ [name]) (.file content)).IsStored hash := by
  have store : disk.home ++ [storeName] ≠ disk.home ++ [name] := by simpa using apart.symm
  have inner (hash : String) : disk.home ++ [storeName, hash] ≠ disk.home ++ [name] := by simp
  refine ⟨⟨hasStore.toIsRooted.put other hasStore.home_directory _, fun node there => ?_,
    fun content node there => ?_⟩, ?_⟩
  · rw [home_put, node?_put (by simp), if_neg store] at there
    exact hasStore.store node there
  · rw [home_put, node?_put (by simp), if_neg (inner _)] at there
    exact hasStore.addressed content node there
  · rintro hash ⟨held, there, digested⟩
    refine ⟨held, ?_, digested⟩
    rwa [home_put, node?_put (by simp), if_neg (inner _)]

theorem HasStore.guards_put (hasStore : disk.HasStore) (store : name ≠ storeName)
    (lockfile : lockfileName ≠ name)
    (other : disk.node? (disk.home ++ [name]) ≠ some .directory) (content : ByteArray) :
    Guards gone disk (disk.put (disk.home ++ [name]) (.file content)) where
  hasStore := (hasStore.put_file store other content).1
  home := rfl
  stored := fun hash _ => (hasStore.put_file store other content).2 hash
  lockfile := by
    rw [node?_put (by simp), if_neg (by simpa using lockfile)]

end Disk

/-! ## Lockfiles and what they rely on -/

namespace Lockfile

variable {disk after : Disk} {previous made lockfile : Lockfile} {catalog : Catalog}

theorem IsBacked.goDigests (backed : previous.IsBacked disk) :
    Disk.GoDigests (previous.Discards made) := by
  intro hash discards
  obtain ⟨id, lock, found, rfl⟩ := discards.exists_lock
  exact (backed id lock found).exists_digest

/-- Carrying out the changes to another lockfile guards the contents that do not go with them. -/
theorem IsBacked.shields_changes (backed : previous.IsBacked disk) (rooted : disk.IsRooted)
    (names : previous.HasFreeNames IsReserved) (links : made.HasFreeLinks IsReserved) :
    disk.Shields IsReserved (previous.Discards made)
      ((((LinkTable.ofLockfile previous).changes (LinkTable.ofLockfile made)).carryOut ".").left
        disk) := by
  refine Lockfile.shields_changes (Disk.secures_dot (fun _ => False) disk) (fun _ none => none.elim)
    rooted (.refl _ disk) (fun id lock found => ?_) names links
  obtain ⟨content, same⟩ := (backed id lock found).exists_digest
  rw [same]
  exact (isName_digest content).slash_free

theorem isBacked_reread (backed : lockfile.IsBacked disk) : lockfile.reread.IsBacked disk := by
  intro id lock found
  rw [get?_reread, Option.map_eq_some_iff] at found
  obtain ⟨earlier, there, rfl⟩ := found
  exact backed id earlier there

theorem hasFreeNames_reread {reserved : String → Prop} (names : lockfile.HasFreeNames reserved) :
    lockfile.reread.HasFreeNames reserved := by
  intro id lock found tagged
  rw [get?_reread, Option.map_eq_some_iff] at found
  obtain ⟨earlier, there, rfl⟩ := found
  exact names id earlier there fun none => tagged (by rw [Lock.reread, none, List.map_nil])

end Lockfile

/-- No name of a link that a catalog calls for is reserved. -/
def Catalog.HasFreeLinks (reserved : String → Prop) (catalog : Catalog) : Prop :=
  ∀ id file, catalog.files.get? id = some file → ∀ tag ∈ file.tags,
    ∀ name ∈ linkNames id tag, ¬reserved name

theorem Catalog.HasFreeLinks.of_ofCatalog {reserved : String → Prop} {catalog : Catalog}
    {previous made : Lockfile} {output : String} {dry : Bool} {disk after : Disk}
    (links : catalog.HasFreeLinks reserved)
    (done : Lockfile.ofCatalog catalog previous output dry disk = .ok made after) :
    made.HasFreeLinks reserved := by
  obtain ⟨hashes, -, locks, -⟩ := Lockfile.ofCatalog_ok done
  intro id lock found
  rw [locks, Index.get?_map, Option.map_eq_some_iff] at found
  obtain ⟨file, there, rfl⟩ := found
  exact links id file there

end TagStore
