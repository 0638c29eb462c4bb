import TagStore.Proofs.Disk.Shields
import TagStore.Proofs.Disk.Spares
import TagStore.Proofs.Links.CarryOut
import TagStore.Proofs.Links.Path
import TagStore.Proofs.Links.Steps
import TagStore.Proofs.Links.Table

/-!
# Carrying out changes leaves reserved names alone

If no name of a link is reserved, then carrying out the changes from the links of one lockfile to
those of another leaves everything under a reserved name as it is, except for the stored files that
go.  This is so whether it succeeds or fails, and wherever links may lead meanwhile.
-/

namespace TagStore

open Location (EndsIn IsClear)

namespace Changes

variable {start disk : Disk} {met reserved gone : String → Prop} {changes : Changes Item}
  {output path : String}

/-- In an output directory, a path is clear if none of its own names is reserved. -/
theorem isClear_join (rooted : disk.IsRooted)
    (free : ∀ name ∈ Location.namesOfEntry path, ¬reserved name) :
    IsClear (disk.way output) reserved (Location.join (disk.absolute output) path) := by
  by_cases absolute : Location.isAbsolute path
  · rw [Location.join, absolute, Bool.true_or, if_pos rfl]
    exact .inl free
  · have relative : Location.isAbsolute path = false := by simpa using absolute
    have outer := disk.isAbsolute_absolute output
    have written : disk.absolute output ≠ "" := by
      intro none
      rw [none] at outer
      exact absurd outer (by decide)
    have names : Location.namesOfEntry (Location.join (disk.absolute output) path) =
        disk.way output ++ Location.namesOfEntry path := by
      rw [Location.namesOfEntry_join relative written, rooted.namesOfEntry_absolute]
    refine .inr ⟨?_, Location.namesOfEntry path, names ▸ List.prefix_rfl, free⟩
    rw [Location.isAbsolute_join relative written, outer]

theorem shields_remove_join (keeps : ∀ name, met name → reserved name ∧ ¬gone name)
    {directory name : String} (ends : EndsIn path name) (free : '/' ∉ name.toList)
    (may : reserved name → gone name) :
    Disk.StepShields start met reserved gone (Disk.remove (Location.join directory path)) := by
  refine Disk.shields_remove keeps fun named last listed => ?_
  rw [(ends.join directory).eq_of_getLast? free named listed]
  exact may

/-- Changes carried out in an output directory that stays there leave reserved names alone, except
for the stored files that go. -/
theorem shields_carryOut (secures : start.Secures met output)
    (keeps : ∀ name, met name → reserved name ∧ ¬gone name) (rooted : disk.IsRooted)
    (agrees : start.Agrees met disk)
    (removes : ∀ item ∈ changes.removed, ∃ name, EndsIn item.path name ∧ '/' ∉ name.toList ∧
      (reserved name → gone name))
    (creates : ∀ stored path, Item.link stored path ∈ changes.created →
      (∀ name ∈ Location.namesOfEntry path, ¬reserved name) ∧
        ∃ name, EndsIn path name ∧ '/' ∉ name.toList ∧ ¬reserved name) :
    disk.Shields reserved gone ((changes.carryOut output).left disk) := by
  have chains := @Disk.chains_shields start met reserved gone keeps
  refine chains.carryOut (fun item member => ?_) (fun item member => ?_) rooted agrees
  · obtain ⟨name, ends, free, may⟩ := removes item member
    exact Chains.removeItem (shields_remove_join keeps ends free may)
  · refine chains.createItem ?_
    rintro stored path rfl
    obtain ⟨names, name, ends, free, other⟩ := creates stored path member
    have clear : IsClear (disk.way output) reserved _ := isClear_join rooted names
    rw [agrees.way_eq] at clear
    exact chains.replaceLink (Disk.shields_makeParents keeps secures clear)
      (shields_remove_join keeps ends free fun isReserved => absurd isReserved other)
      (Disk.shields_makeLink keeps secures clear)

end Changes

/-! ## Changes between lockfiles -/

namespace Lockfile

variable {start disk : Disk} {met reserved : String → Prop} {output : String}
  {previous made lockfile : Lockfile}

/-- No name of a link is reserved. -/
def HasFreeLinks (reserved : String → Prop) (lockfile : Lockfile) : Prop :=
  ∀ id lock, lockfile.locks.get? id = some lock → ∀ tag ∈ lock.tags,
    ∀ name ∈ linkNames id tag, ¬reserved name

/-- No name of a file with links is reserved. -/
def HasFreeNames (reserved : String → Prop) (lockfile : Lockfile) : Prop :=
  ∀ id lock, lockfile.locks.get? id = some lock → lock.tags ≠ [] → ¬reserved (linkSegment id)

theorem HasFreeLinks.hasFreeNames (links : lockfile.HasFreeLinks reserved) :
    lockfile.HasFreeNames reserved := by
  intro id lock found tagged
  obtain ⟨tag, rest, split⟩ := List.exists_cons_of_ne_nil tagged
  exact links id lock found tag (split ▸ List.mem_cons_self) _ (linkSegment_mem_linkNames id tag)

/-- The stored file of a digest goes with the changes from one lockfile to another. -/
def Discards (previous made : Lockfile) (hash : String) : Prop :=
  Item.file (storedAt hash) ∈
    ((LinkTable.ofLockfile previous).changes (LinkTable.ofLockfile made)).removed

theorem not_discards {id : String} {lock : Lock} (found : made.locks.get? id = some lock) :
    ¬previous.Discards made lock.hash := by
  intro discards
  refine (LinkTable.file_mem_removed_iff.mp discards).2 ?_
  exact LinkTable.mem_keys_ofLockfile.mpr ⟨id, lock, found, rfl⟩

theorem Discards.exists_lock {hash : String} (discards : previous.Discards made hash) :
    ∃ id lock, previous.locks.get? id = some lock ∧ lock.hash = hash := by
  obtain ⟨id, lock, found, same⟩ :=
    LinkTable.mem_keys_ofLockfile.mp (LinkTable.file_mem_removed_iff.mp discards).1
  exact ⟨id, lock, found, storedAt_inj same⟩

/-- Carrying out the changes to a lockfile whose links have no reserved names leaves everything
under reserved names, except for the stored files that go. -/
theorem shields_changes (secures : start.Secures met output)
    (keeps : ∀ name, met name → reserved name ∧ ¬previous.Discards made name)
    (rooted : disk.IsRooted) (agrees : start.Agrees met disk)
    (hashes : ∀ id lock, previous.locks.get? id = some lock → '/' ∉ lock.hash.toList)
    (names : previous.HasFreeNames reserved) (links : made.HasFreeLinks reserved) :
    disk.Shields reserved (previous.Discards made)
      ((((LinkTable.ofLockfile previous).changes (LinkTable.ofLockfile made)).carryOut output).left
        disk) := by
  refine Changes.shields_carryOut secures keeps rooted agrees (fun item member => ?_)
    (fun stored path member => ?_)
  · cases item with
    | file stored =>
        obtain ⟨earlier, -⟩ := LinkTable.file_mem_removed_iff.mp member
        obtain ⟨id, lock, found, rfl⟩ := LinkTable.mem_keys_ofLockfile.mp earlier
        exact ⟨lock.hash, endsIn_storedAt lock.hash, hashes id lock found, fun _ => member⟩
    | link stored path =>
        obtain ⟨listed, -⟩ := LinkTable.link_mem_removed_iff.mp member
        obtain ⟨id, lock, tag, found, -, tagged, rfl⟩ := LinkTable.exists_tag_of_mem_of listed
        have other := names id lock found (List.ne_nil_of_mem tagged)
        exact ⟨linkSegment id, endsIn_linkPath id tag, slash_free_linkSegment id,
          fun isReserved => absurd isReserved other⟩
  · obtain ⟨listed, -⟩ := LinkTable.link_mem_created_iff.mp member
    obtain ⟨id, lock, tag, found, -, tagged, rfl⟩ := LinkTable.exists_tag_of_mem_of listed
    have free := links id lock found tag tagged
    exact ⟨fun name member => free name (mem_linkNames_of_mem_namesOfEntry member), linkSegment id,
      endsIn_linkPath id tag, slash_free_linkSegment id, free _ (linkSegment_mem_linkNames id tag)⟩

end Lockfile
end TagStore
