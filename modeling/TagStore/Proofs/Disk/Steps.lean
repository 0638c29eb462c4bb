import TagStore.Disk.Write

/-!
# Steps within a relation

What a step does to a disk can be described by a relation between the disk before and the disk after
it, be the step successful or not.  If the relation is reflexive and transitive, it is enough to
know that it holds where a step puts a node or takes one away.
-/

namespace TagStore
namespace DiskStep

variable {ε α β : Type}

/-- The disk after a step, whether it succeeds or fails. -/
def left (step : DiskStep ε α) (disk : Disk) : Disk :=
  match step disk with
  | .ok _ after => after
  | .error _ after => after

theorem left_ok {step : DiskStep ε α} {disk after : Disk} {value : α}
    (done : step disk = .ok value after) : step.left disk = after := by
  rw [left, done]

theorem left_error {step : DiskStep ε α} {disk after : Disk} {error : ε}
    (failed : step disk = .error error after) : step.left disk = after := by
  rw [left, failed]

theorem left_congr {step other : DiskStep ε α} {disk : Disk} (same : step disk = other disk) :
    step.left disk = other.left disk := by
  rw [left, left, same]

theorem left_bind (first : DiskStep ε α) (next : α → DiskStep ε β) (disk : Disk) :
    left (first >>= next) disk = left first disk ∨
      ∃ value between, first disk = .ok value between ∧
        left (first >>= next) disk = left (next value) between := by
  cases result : first disk with
  | ok value between =>
      refine .inr ⟨value, between, rfl, ?_⟩
      simp only [left, bind, EStateM.bind, result]
  | error error between =>
      refine .inl ?_
      simp only [left, bind, EStateM.bind, result]

/-- A step leaves a disk that is related to the one before. -/
def Within (relation : Disk → Disk → Prop) (step : DiskStep ε α) : Prop :=
  ∀ disk, relation disk (step.left disk)

variable {relation : Disk → Disk → Prop} {step : DiskStep ε α} {disk after : Disk}

theorem Within.ok (within : step.Within relation) {value : α}
    (done : step disk = .ok value after) : relation disk after :=
  left_ok done ▸ within disk

theorem Within.error (within : step.Within relation) {error : ε}
    (failed : step disk = .error error after) : relation disk after :=
  left_error failed ▸ within disk

end DiskStep

/-- A relation between disks that holds along chains of changes. -/
structure Chains (relation : Disk → Disk → Prop) : Prop where
  refl : ∀ disk, relation disk disk
  trans : ∀ {before between after}, relation before between → relation between after →
    relation before after

variable {relation : Disk → Disk → Prop}

section

variable {ε α β : Type}

open DiskStep

theorem Chains.pure (chains : Chains relation) (value : α) :
    (pure value : DiskStep ε α).Within relation :=
  fun disk => chains.refl disk

theorem Chains.get (chains : Chains relation) : (get : DiskStep ε Disk).Within relation :=
  fun disk => chains.refl disk

theorem Chains.bind (chains : Chains relation) {first : DiskStep ε α} {next : α → DiskStep ε β}
    (one : first.Within relation) (two : ∀ value, (next value).Within relation) :
    (first >>= next).Within relation := by
  intro disk
  rcases left_bind first next disk with same | ⟨value, between, done, same⟩
  · exact same ▸ one disk
  · exact same ▸ chains.trans (one.ok done) (two value between)

end

namespace Chains

open Disk

variable {path : String} (chains : Chains relation)

include chains

/-! ## Single steps -/

theorem write {content : ByteArray}
    (puts : ∀ disk place node, disk.lookForFile path = .ok ⟨place, node⟩ →
      node ≠ some .directory → relation disk (disk.put place (.file content))) :
    (Disk.write path content).Within relation := by
  intro disk
  simp only [DiskStep.left, Disk.write]
  rcases found : disk.lookForFile path with error | ⟨place, _ | _ | _ | _⟩
  · exact chains.refl disk
  · exact puts disk place _ found nofun
  · exact puts disk place _ found nofun
  · exact puts disk place _ found nofun
  · exact chains.refl disk

theorem makeDirectory
    (puts : ∀ disk place, disk.lookAtEntry path = .ok ⟨place, none⟩ →
      relation disk (disk.put place .directory)) :
    (Disk.makeDirectory path).Within relation := by
  intro disk
  simp only [DiskStep.left, Disk.makeDirectory]
  rcases found : disk.lookAtEntry path with error | ⟨place, _ | node⟩
  · exact chains.refl disk
  · exact puts disk place found
  · exact chains.refl disk

theorem remove
    (drops : Location.endsInSlash path = false → ∀ disk place node,
      disk.lookAtEntry path = .ok ⟨place, some node⟩ → node ≠ .directory →
        relation disk (disk.drop place)) :
    (Disk.remove path).Within relation := by
  intro disk
  simp only [DiskStep.left, Disk.remove]
  rcases found : disk.lookAtEntry path with error | ⟨place, _ | _ | _ | _⟩
  · exact chains.refl disk
  · exact chains.refl disk
  · cases named : Location.endsInSlash path with
    | true => exact chains.refl disk
    | false => exact drops named disk place _ found nofun
  · cases named : Location.endsInSlash path with
    | true => exact chains.refl disk
    | false => exact drops named disk place _ found nofun
  · exact chains.refl disk

theorem makeLink {target : String}
    (puts : ∀ disk place, disk.lookAtEntry path = .ok ⟨place, none⟩ →
      relation disk (disk.put place (.link target))) :
    (Disk.makeLink target path).Within relation := by
  intro disk
  simp only [DiskStep.left, Disk.makeLink]
  cases checkPath target with
  | error error => exact chains.refl disk
  | ok _ =>
      rcases found : disk.lookAtEntry path with error | ⟨place, _ | node⟩
      · exact chains.refl disk
      · cases Location.endsInSlash path with
        | true => exact chains.refl disk
        | false => exact puts disk place found
      · exact chains.refl disk

/-! ## Directories -/

theorem unlessDirectory (path : String) (error : DiskError) :
    (Disk.unlessDirectory path error).Within relation := by
  intro disk
  simp only [DiskStep.left, Disk.unlessDirectory]
  cases disk.isDirectory path with
  | true => exact chains.refl disk
  | false => exact chains.refl disk

theorem makeDirectoryAfter {above : DiskStep DiskError Unit} (first : above.Within relation)
    (here : (Disk.makeDirectory path).Within relation) :
    (Disk.makeDirectoryAfter above path).Within relation := by
  intro disk
  simp only [DiskStep.left, Disk.makeDirectoryAfter]
  cases made : above disk with
  | error error between => exact first.error made
  | ok _ between =>
      cases last : Disk.makeDirectory path between with
      | ok _ after =>
          simp only [last]
          exact chains.trans (first.ok made) (here.ok last)
      | error error after =>
          simp only [last]
          exact chains.trans (first.ok made)
            (chains.trans (here.error last) (chains.unlessDirectory path error after))

/-- Making directories stays within a relation if making each of them does. -/
theorem makeDirectoriesWithin {goes : String → Prop}
    (here : ∀ path, goes path → (Disk.makeDirectory path).Within relation)
    (above : ∀ path parent, goes path → Location.parent? path = some parent → goes parent)
    (fuel : Nat) (of : goes path) : (Disk.makeDirectoriesWithin fuel path).Within relation := by
  induction fuel generalizing path with
  | zero =>
      intro disk
      simp only [DiskStep.left, Disk.makeDirectoriesWithin]
      by_cases none : path = ""
      · rw [if_pos none]
        exact chains.refl disk
      · rw [if_neg none]
        exact chains.makeDirectoryAfter (chains.pure ()) (here path of) disk
  | succ fuel induction =>
      intro disk
      simp only [DiskStep.left, Disk.makeDirectoriesWithin]
      by_cases none : path = ""
      · rw [if_pos none]
        exact chains.refl disk
      · rw [if_neg none]
        cases made : Disk.makeDirectory path disk with
        | ok _ after => exact (here path of).ok made
        | error error between =>
            have one := (here path of).error made
            by_cases missing : error = .notFound
            · subst missing
              cases found : Location.parent? path with
              | none => exact one
              | some parent =>
                  exact chains.trans one (chains.makeDirectoryAfter
                    (induction (above path parent of found)) (here path of) between)
            · simp only
              exact chains.trans one (chains.unlessDirectory path error between)

theorem makeParents (goes : String → Prop)
    (here : ∀ path, goes path → (Disk.makeDirectory path).Within relation)
    (above : ∀ path parent, goes path → Location.parent? path = some parent → goes parent)
    (of : goes path) : (Disk.makeParents path).Within relation := by
  rw [Disk.makeParents]
  split
  · rename_i parent found
    exact chains.makeDirectoriesWithin here above _ (above path parent of found)
  · exact chains.pure ()

end Chains
end TagStore
