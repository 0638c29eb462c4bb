import TagStore.Links.CarryOut
import TagStore.Proofs.Disk.Steps

/-!
# Carrying out changes within a relation

Carrying out changes is a chain of single steps on the paths of the items, so it stays within a
relation that these steps stay within.
-/

namespace TagStore

namespace Changes

theorem left_removeItem (output : String) (item : Item) (disk : Disk) :
    (removeItem output item).left disk =
      (Disk.remove (Location.join output item.path)).left disk := by
  delta removeItem DiskStep.left
  rcases Disk.remove (Location.join output item.path) disk with ⟨_, after⟩ | ⟨error, after⟩
  · rfl
  · cases error <;> rfl

end Changes

namespace Chains

variable {relation : Disk → Disk → Prop} {output path target : String} {item : Item}
  {changes : Changes Item} (chains : Chains relation)

theorem removeItem
    (removes : (Disk.remove (Location.join output item.path)).Within relation) :
    (Changes.removeItem output item).Within relation := by
  intro disk
  rw [Changes.left_removeItem]
  exact removes disk

include chains

theorem replaceLink (parents : (Disk.makeParents path).Within relation)
    (removes : (Disk.remove path).Within relation)
    (makes : (Disk.makeLink target path).Within relation) :
    (Changes.replaceLink target path).Within relation := by
  refine chains.bind parents fun _ => chains.bind chains.get fun disk => ?_
  split
  · exact chains.bind removes fun _ => makes
  · exact makes

theorem createItem
    (replaces : ∀ stored path, item = .link stored path →
      (Changes.replaceLink (Location.join output stored) (Location.join output path)).Within
        relation) :
    (Changes.createItem output item).Within relation := by
  cases item with
  | file path => exact chains.pure ()
  | link stored path => exact replaces stored path rfl

theorem each {step : Item → DiskStep DiskError Unit} {items : List Item}
    (steps : ∀ item ∈ items, (step item).Within relation) :
    (Changes.each step items).Within relation := by
  induction items with
  | nil => exact chains.pure ()
  | cons item rest induction =>
      obtain ⟨first, later⟩ := List.forall_mem_cons.mp steps
      exact chains.bind first fun _ => induction later

theorem carryOut {disk : Disk}
    (removes : ∀ item ∈ changes.removed,
      (Changes.removeItem (disk.absolute output) item).Within relation)
    (creates : ∀ item ∈ changes.created,
      (Changes.createItem (disk.absolute output) item).Within relation) :
    relation disk ((changes.carryOut output).left disk) :=
  chains.bind (chains.each removes) (fun _ => chains.each creates) disk

end Chains
end TagStore
