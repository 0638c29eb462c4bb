import TagStore.Proofs.Disk.Steps
import TagStore.Proofs.Lockfile.Ways

/-!
# Recording files within a relation

Making a lockfile changes the disk only where it keeps contents, and not at all in a dry run.
-/

namespace TagStore
namespace Chains

open Lockfile

variable {relation : Disk → Disk → Prop} {output : String} {dry : Bool} (chains : Chains relation)
  (keeps : dry = false → ∀ content, (keep output (digest content) content).Within relation)

include chains keeps

theorem store (source : String) : (Lockfile.store output dry source).Within relation := by
  intro disk
  have way := store_way output dry source disk
  generalize done : Lockfile.store output dry source disk = result at way
  cases way with
  | unread =>
      rw [DiskStep.left_error done]
      exact chains.refl disk
  | dry =>
      rw [DiskStep.left_ok done]
      exact chains.refl disk
  | kept wet _ kept =>
      rw [DiskStep.left_ok done]
      exact (keeps wet _).ok kept
  | unkept wet _ failed =>
      rw [DiskStep.left_error done]
      exact (keeps wet _).error failed

theorem hashOf (previous : Lockfile) (id : String) (file : FileRecord) :
    (Lockfile.hashOf previous output dry id file).Within relation := by
  rw [Lockfile.hashOf]
  split
  · exact chains.pure _
  · exact chains.store keeps file.source

theorem recordAll (previous : Lockfile) (files : List (String × FileRecord)) (start : Lockfile) :
    (Lockfile.recordAll previous output dry files start).Within relation := by
  induction files generalizing start with
  | nil => exact chains.pure _
  | cons entry rest induction =>
      exact chains.bind (chains.hashOf keeps previous entry.1 entry.2) fun _ => induction _

end Chains
end TagStore
