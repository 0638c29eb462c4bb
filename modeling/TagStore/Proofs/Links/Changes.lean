import TagStore.Proofs.Links.CarryOut
import TagStore.Proofs.Links.Path
import TagStore.Proofs.Links.Table

/-!
# Changes between two lockfiles

A lockfile calls for the stored contents with its digests and for the links of its tags.  The
changes from one lockfile to another clear what only the first calls for, and make the links that
only the second calls for.
-/

namespace TagStore

open Disk (storeName storedTarget)
open Location (IsEntry IsName)

/-! ## What a lockfile calls for -/

namespace Lockfile

/-- A digest is that of some file. -/
def Has (lockfile : Lockfile) (hash : String) : Prop :=
  ∃ id lock, lockfile.locks.get? id = some lock ∧ lock.hash = hash

/-- Some names are those of a link to the content with a digest. -/
def Links (lockfile : Lockfile) (names : List String) (hash : String) : Prop :=
  ∃ id lock tag, lockfile.locks.get? id = some lock ∧ tag ∈ lock.tags ∧ names = linkNames id tag ∧
    lock.hash = hash

/-- A lockfile with words for identifiers, digests that can be names, and tags that give links. -/
structure IsTidy (lockfile : Lockfile) : Prop where
  word : ∀ {id lock}, lockfile.locks.get? id = some lock → Tag.Edit.isWord id
  hash : ∀ {id lock}, lockfile.locks.get? id = some lock → IsName lock.hash
  linkable : ∀ {id lock}, lockfile.locks.get? id = some lock → ∀ tag ∈ lock.tags, tag.IsLinkable

variable {lockfile : Lockfile} {names : List String} {hash other : String}

theorem Links.has (links : lockfile.Links names hash) : lockfile.Has hash := by
  obtain ⟨id, lock, _, found, _, _, same⟩ := links
  exact ⟨id, lock, found, same⟩

theorem IsTidy.isName (tidy : lockfile.IsTidy) (has : lockfile.Has hash) : IsName hash := by
  obtain ⟨id, lock, found, rfl⟩ := has
  exact tidy.hash found

/-- A link has one stored file to point at. -/
theorem IsTidy.hash_unique (tidy : lockfile.IsTidy) (first : lockfile.Links names hash)
    (second : lockfile.Links names other) : hash = other := by
  obtain ⟨id, lock, tag, found, _, rfl, rfl⟩ := first
  obtain ⟨id', lock', tag', found', _, same, rfl⟩ := second
  cases id_eq_of_linkNames_eq (tidy.word found) (tidy.word found') same
  cases found.symm.trans found'
  rfl

theorem IsTidy.outside (tidy : lockfile.IsTidy) (links : lockfile.Links names hash) :
    names.head? ≠ some storeName ∧ names.dropLast ≠ [] := by
  obtain ⟨id, lock, tag, found, listed, rfl, -⟩ := links
  exact linkNames_outside (tidy.linkable found tag listed)

end Lockfile

namespace LinkTable

variable {lockfile previous next : Lockfile} {hash path : String} {names : List String}

theorem isEntry_of_mem_of (tidy : lockfile.IsTidy)
    (listed : path ∈ (ofLockfile lockfile).of (Lockfile.storedAt hash)) :
    IsEntry path ∧ lockfile.Links (Location.namesOfEntry path) hash := by
  obtain ⟨id, lock, found, same, listed⟩ := mem_of_ofLockfile.mp listed
  obtain ⟨tag, member, rfl⟩ := List.mem_map.mp listed
  have word := tidy.word found
  have linkable := tidy.linkable found tag member
  exact ⟨isEntry_linkPath word linkable,
    ⟨id, lock, tag, found, member, namesOfEntry_linkPath word linkable, same⟩⟩

theorem mem_of_iff_links (tidy : lockfile.IsTidy) (isEntry : IsEntry path) :
    path ∈ (ofLockfile lockfile).of (Lockfile.storedAt hash) ↔
      lockfile.Links (Location.namesOfEntry path) hash := by
  constructor
  · intro listed
    exact (isEntry_of_mem_of tidy listed).2
  · rintro ⟨id, lock, tag, found, member, names, same⟩
    apply mem_of_ofLockfile.mpr
    refine ⟨id, lock, found, same, List.mem_map.mpr ⟨tag, member, ?_⟩⟩
    rw [isEntry.eq_ofParts, names, linkPath_eq]

theorem exists_hash_of_mem_of {stored : String} (listed : path ∈ (ofLockfile lockfile).of stored) :
    ∃ hash, stored = Lockfile.storedAt hash := by
  obtain ⟨_, lock, _, _, same, _⟩ := exists_tag_of_mem_of listed
  exact ⟨lock.hash, same⟩

theorem storedAt_mem_keys_iff :
    Lockfile.storedAt hash ∈ (ofLockfile lockfile).links.keys ↔ lockfile.Has hash := by
  rw [mem_keys_ofLockfile]
  constructor
  · rintro ⟨id, lock, found, same⟩
    exact ⟨id, lock, found, Lockfile.storedAt_inj same⟩
  · rintro ⟨id, lock, found, rfl⟩
    exact ⟨id, lock, found, rfl⟩

/-! ## The changes between two lockfiles -/

/-- The changes from one lockfile to another. -/
abbrev changesBetween (previous next : Lockfile) : Changes Item :=
  (ofLockfile previous).changes (ofLockfile next)

/-- A place in the output directory is to be cleared. -/
def Gone (previous next : Lockfile) (names : List String) : Prop :=
  (∃ hash, names = [storeName, hash] ∧ previous.Has hash ∧ ¬next.Has hash) ∨
    ∃ hash, previous.Links names hash ∧ ¬next.Links names hash

theorem mem_removed_cases (previousTidy : previous.IsTidy) (nextTidy : next.IsTidy) {item : Item}
    (member : item ∈ (changesBetween previous next).removed) :
    IsEntry item.path ∧ Gone previous next (Location.namesOfEntry item.path) := by
  cases item with
  | file stored =>
      obtain ⟨earlier, gone⟩ := file_mem_removed_iff.mp member
      obtain ⟨id, lock, found, rfl⟩ := mem_keys_ofLockfile.mp earlier
      rw [storedAt_mem_keys_iff] at earlier gone
      have isName := previousTidy.hash found
      exact ⟨Lockfile.isEntry_storedAt isName,
        .inl ⟨lock.hash, Lockfile.namesOfEntry_storedAt isName, earlier, gone⟩⟩
  | link stored path =>
      obtain ⟨earlier, gone⟩ := link_mem_removed_iff.mp member
      obtain ⟨hash, rfl⟩ := exists_hash_of_mem_of earlier
      obtain ⟨isEntry, links⟩ := isEntry_of_mem_of previousTidy earlier
      rw [mem_of_iff_links nextTidy isEntry] at gone
      exact ⟨isEntry, .inr ⟨hash, links, gone⟩⟩

theorem exists_mem_removed (previousTidy : previous.IsTidy) (nextTidy : next.IsTidy)
    (gone : Gone previous next names) :
    ∃ item ∈ (changesBetween previous next).removed, names = Location.namesOfEntry item.path := by
  rcases gone with ⟨hash, rfl, earlier, gone⟩ | ⟨hash, earlier, gone⟩
  · refine ⟨.file (Lockfile.storedAt hash), file_mem_removed_iff.mpr ?_,
      (Lockfile.namesOfEntry_storedAt (previousTidy.isName earlier)).symm⟩
    rw [storedAt_mem_keys_iff, storedAt_mem_keys_iff]
    exact ⟨earlier, gone⟩
  · obtain ⟨id, lock, tag, found, member, rfl, rfl⟩ := earlier
    have word := previousTidy.word found
    have linkable := previousTidy.linkable found tag member
    have isEntry := isEntry_linkPath word linkable
    have same := namesOfEntry_linkPath word linkable
    refine ⟨.link (Lockfile.storedAt lock.hash) (linkPath id tag), link_mem_removed_iff.mpr ?_,
      same.symm⟩
    rw [mem_of_iff_links previousTidy isEntry, mem_of_iff_links nextTidy isEntry, same]
    exact ⟨⟨id, lock, tag, found, member, rfl, rfl⟩, gone⟩

/-- What is removed stands at the places that are to be cleared. -/
theorem removed_iff_gone (previousTidy : previous.IsTidy) (nextTidy : next.IsTidy) {home : Place} :
    (∃ item ∈ (changesBetween previous next).removed,
      home ++ names = home ++ Location.namesOfEntry item.path) ↔ Gone previous next names := by
  constructor
  · rintro ⟨item, member, same⟩
    rw [List.append_cancel_left same]
    exact (mem_removed_cases previousTidy nextTidy member).2
  · intro gone
    obtain ⟨item, member, rfl⟩ := exists_mem_removed previousTidy nextTidy gone
    exact ⟨item, member, rfl⟩

/-- The links made are those that were not there, and each can be made. -/
theorem link_mem_created_cases (previousTidy : previous.IsTidy) (nextTidy : next.IsTidy)
    {stored path : String} (member : .link stored path ∈ (changesBetween previous next).created) :
    ∃ hash, stored = Lockfile.storedAt hash ∧ IsEntry path ∧
      next.Links (Location.namesOfEntry path) hash ∧
      ¬previous.Links (Location.namesOfEntry path) hash := by
  obtain ⟨later, absent⟩ := link_mem_created_iff.mp member
  obtain ⟨hash, rfl⟩ := exists_hash_of_mem_of later
  obtain ⟨isEntry, links⟩ := isEntry_of_mem_of nextTidy later
  rw [mem_of_iff_links previousTidy isEntry] at absent
  exact ⟨hash, rfl, isEntry, links, absent⟩

theorem link_mem_created (previousTidy : previous.IsTidy) (nextTidy : next.IsTidy)
    (links : next.Links names hash) (absent : ¬previous.Links names hash) :
    ∃ path, .link (Lockfile.storedAt hash) path ∈ (changesBetween previous next).created ∧
      names = Location.namesOfEntry path := by
  obtain ⟨id, lock, tag, found, member, rfl, rfl⟩ := links
  have word := nextTidy.word found
  have linkable := nextTidy.linkable found tag member
  have isEntry := isEntry_linkPath word linkable
  have same := namesOfEntry_linkPath word linkable
  refine ⟨linkPath id tag, link_mem_created_iff.mpr ?_, same.symm⟩
  rw [mem_of_iff_links nextTidy isEntry, mem_of_iff_links previousTidy isEntry, same]
  exact ⟨⟨id, lock, tag, found, member, rfl, rfl⟩, absent⟩

/-- The links made are those that only the second lockfile calls for. -/
theorem created_iff {disk : Disk} (rooted : disk.IsRooted) (previousTidy : previous.IsTidy)
    (nextTidy : next.IsTidy) {target : String} :
    (∃ item ∈ (changesBetween previous next).created,
      Changes.Calls disk.home (disk.absolute ".") item (disk.home ++ names) target) ↔
    ∃ hash, next.Links names hash ∧ ¬previous.Links names hash ∧
      target = storedTarget disk.home hash := by
  constructor
  · rintro ⟨_, member, stored, path, rfl, place, rfl⟩
    obtain ⟨hash, rfl, -, links, absent⟩ :=
      link_mem_created_cases previousTidy nextTidy member
    rw [← List.append_cancel_left place] at links absent
    exact ⟨hash, links, absent, Disk.join_storedAt rooted (nextTidy.isName links.has)⟩
  · rintro ⟨hash, links, absent, rfl⟩
    obtain ⟨path, member, rfl⟩ := link_mem_created previousTidy nextTidy links absent
    refine ⟨_, member, _, path, rfl, rfl, ?_⟩
    exact (Disk.join_storedAt rooted (nextTidy.isName links.has)).symm

/-- Every link to be made may stand at its place. -/
theorem isReady_of_mem_created {disk : Disk} (rooted : disk.IsRooted)
    (previousTidy : previous.IsTidy) (nextTidy : next.IsTidy) :
    ∀ item ∈ (changesBetween previous next).created,
      Changes.IsReady disk.home (disk.absolute ".") item := by
  rintro _ member stored path rfl
  obtain ⟨hash, rfl, isEntry, links, -⟩ := link_mem_created_cases previousTidy nextTidy member
  have isName := nextTidy.isName links.has
  exact ⟨isEntry, (nextTidy.outside links).1, hash, isName, Disk.join_storedAt rooted isName⟩

end LinkTable
end TagStore
