import TagStore.Disk.Basic

/-!
# Changing disks

Operations that change a disk or fail.  One that fails leaves the disk as it was, except that the
directories made by then on the way to a place stay.
-/

namespace TagStore

/-- A step that changes a disk and may fail, keeping what it did until then. -/
abbrev DiskStep (ε α : Type) := EStateM ε Disk α

namespace Disk

/-- Give a file a content, making it if its place is free. -/
def write (path : String) (content : ByteArray) : DiskStep DiskError Unit := fun disk =>
  match disk.lookForFile path with
  | .error error => .error error disk
  | .ok ⟨_, some .directory⟩ => .error .isDirectory disk
  | .ok ⟨place, _⟩ => .ok () (disk.put place (.file content))

/-- Make a directory at a free place. -/
def makeDirectory (path : String) : DiskStep DiskError Unit := fun disk =>
  match disk.lookAtEntry path with
  | .error error => .error error disk
  | .ok ⟨_, some _⟩ => .error .exists disk
  | .ok ⟨place, none⟩ => .ok () (disk.put place .directory)

/-- Take a failed step as done if it was to make a directory that is there. -/
def unlessDirectory (path : String) (error : DiskError) : DiskStep DiskError Unit := fun disk =>
  if disk.isDirectory path then .ok () disk else .error error disk

/-- Make a directory unless it is there, once those above it have been made. -/
def makeDirectoryAfter (above : DiskStep DiskError Unit) (path : String) :
    DiskStep DiskError Unit := fun disk =>
  match above disk with
  | .error error disk => .error error disk
  | .ok _ disk =>
    match makeDirectory path disk with
    | .ok _ disk => .ok () disk
    | .error error disk => unlessDirectory path error disk

/-- Make a directory and those above it, as far as they are missing; `fuel` bounds their number. -/
def makeDirectoriesWithin : (fuel : Nat) → (path : String) → DiskStep DiskError Unit
  | 0, path => fun disk =>
    if path = "" then .ok () disk else makeDirectoryAfter (pure ()) path disk
  | fuel + 1, path => fun disk =>
    if path = "" then .ok () disk
    else
      match makeDirectory path disk with
      | .ok _ disk => .ok () disk
      | .error .notFound disk =>
        match Location.parent? path with
        | none => .error .notFound disk
        | some parent => makeDirectoryAfter (makeDirectoriesWithin fuel parent) path disk
      | .error error disk => unlessDirectory path error disk

/-- Make a directory and those above it, as far as they are missing. -/
def makeDirectories (path : String) : DiskStep DiskError Unit :=
  makeDirectoriesWithin path.length path

/-- Make the directories above a path. -/
def makeParents (path : String) : DiskStep DiskError Unit :=
  match Location.parent? path with
  | some parent => makeDirectories parent
  | none => pure ()

/-- Remove a file or a link. -/
def remove (path : String) : DiskStep DiskError Unit := fun disk =>
  match disk.lookAtEntry path with
  | .error error => .error error disk
  | .ok ⟨_, none⟩ => .error .notFound disk
  | .ok ⟨_, some .directory⟩ => .error .isDirectory disk
  | .ok ⟨place, some _⟩ =>
    if Location.endsInSlash path then .error .notDirectory disk else .ok () (disk.drop place)

/-- Make a link at a free place. -/
def makeLink (target path : String) : DiskStep DiskError Unit := fun disk =>
  match checkPath target, disk.lookAtEntry path with
  | .error error, _ | _, .error error => .error error disk
  | .ok _, .ok ⟨_, some _⟩ => .error .exists disk
  | .ok _, .ok ⟨place, none⟩ =>
    if Location.endsInSlash path then .error .notFound disk
    else .ok () (disk.put place (.link target))

/-- Give a file a content, making the directories above it. -/
def place (path : String) (content : ByteArray) : DiskStep DiskError Unit := do
  makeParents path
  write path content

end Disk
end TagStore
