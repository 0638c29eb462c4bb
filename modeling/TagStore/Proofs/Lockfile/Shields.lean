import TagStore.Proofs.Disk.Shields
import TagStore.Proofs.Lockfile.Fills
import TagStore.Proofs.Lockfile.Steps

/-!
# Making a lockfile leaves reserved names alone

In an output directory that is there, with nothing but files in its store, making a lockfile makes
the store and contents under their digests.  So everything under other names stays as it is, whether
it succeeds or fails.
-/

namespace TagStore

open Disk (storeName)
open Location (IsName)

namespace Lockfile

variable {disk after : Disk} {output hash : String} {content : ByteArray}
  {reserved gone : String → Prop}

section Keep

variable (isOpen : IsOpen disk output)

include isOpen

theorem IsOpen.shields_makeParents (store : ¬reserved storeName) (isName : IsName hash) :
    disk.Shields reserved gone
      ((Disk.makeParents (Location.join output (storedAt hash))).left disk) := by
  obtain ⟨limit, there, reaches⟩ := isOpen.there
  have rooted := isOpen.toIsRooted
  rcases left_makeParents reaches isName with same | ⟨free, same⟩
  · rw [same]
    exact .refl rooted
  · rw [same]
    exact Disk.shields_put rooted free (reaches.directory rooted) store _

theorem IsOpen.shields_write (digests : ∀ content, ¬reserved (digest content))
    (new : ∀ place found, disk.lookForFile (Location.join output (storedAt (digest content))) ≠
      .ok ⟨place, some (.file found)⟩)
    (done : Disk.write (Location.join output (storedAt (digest content))) content disk =
      .ok () after) : disk.Shields reserved gone after := by
  obtain ⟨limit, there, -, store, free, rfl⟩ := isOpen.write_eq new done
  exact Disk.shields_put isOpen.toIsRooted free store (digests content) _

/-- Keeping a content leaves names alone that are not those of the store and of contents. -/
theorem IsOpen.shields_keep (store : ¬reserved storeName)
    (digests : ∀ content, ¬reserved (digest content)) (content : ByteArray) :
    disk.Shields reserved gone ((Lockfile.keep output (digest content) content).left disk) ∧
      IsOpen ((Lockfile.keep output (digest content) content).left disk) output := by
  have isName := isName_digest content
  by_cases absent : Disk.isThere (disk.look (Location.join output (storedAt (digest content))))
  · rw [DiskStep.left_ok (keep_there absent)]
    exact ⟨.refl isOpen.toIsRooted, isOpen⟩
  obtain ⟨limit, there, reaches⟩ := isOpen.there
  have new := lookForFile_new isOpen.toIsRooted reaches isName absent
  have parents : disk.Shields reserved gone _ := isOpen.shields_makeParents store isName
  have opened := isOpen.makeParents isName
  rw [DiskStep.left_congr (keep_absent absent), Disk.place]
  rcases DiskStep.left_bind (Disk.makeParents _) (fun _ => Disk.write _ content) disk with
    same | ⟨_, between, made, same⟩
  · rw [same]
    exact ⟨parents, opened⟩
  · rw [DiskStep.left_ok made] at new parents opened
    rw [same]
    cases last : Disk.write (Location.join output (storedAt (digest content))) content between with
    | ok _ after =>
        rw [DiskStep.left_ok last]
        exact ⟨parents.trans (opened.shields_write digests new last), (opened.write new last).2⟩
    | error error after =>
        rw [DiskStep.left_error last, Disk.write_error last]
        exact ⟨parents, opened⟩

end Keep

/-- Making a lockfile leaves names alone that are not those of the store and of contents. -/
theorem IsOpen.shields_ofCatalog (isOpen : IsOpen disk output) (store : ¬reserved storeName)
    (digests : ∀ content, ¬reserved (digest content)) (catalog : Catalog) (previous : Lockfile)
    (dry : Bool) :
    disk.Shields reserved gone ((ofCatalog catalog previous output dry).left disk) := by
  have chains : Chains fun before after =>
      IsOpen before output → before.Shields reserved gone after ∧ IsOpen after output := by
    refine ⟨fun disk isOpen => ⟨.refl isOpen.toIsRooted, isOpen⟩, fun first second isOpen => ?_⟩
    obtain ⟨one, isOpen⟩ := first isOpen
    obtain ⟨two, isOpen⟩ := second isOpen
    exact ⟨one.trans two, isOpen⟩
  exact (chains.recordAll (fun _ content _ isOpen => isOpen.shields_keep store digests content)
    previous catalog.files.entries {} disk isOpen).1

end Lockfile
end TagStore
