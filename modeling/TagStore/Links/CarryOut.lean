import TagStore.Disk.Write
import TagStore.Links.Changes

/-!
# Carrying out changes

What is to be removed is removed first, and then the links are made.  Stored files have been written
by then.  Links point at paths from the root.
-/

namespace TagStore

namespace Changes

/-- Remove an item, or find it gone already. -/
def removeItem (output : String) (item : Item) : DiskStep DiskError Unit := fun disk =>
  match Disk.remove (Location.join output item.path) disk with
  | .error .notFound disk => .ok () disk
  | result => result

/-- Make a link in place of the file or link that may be at its path. -/
def replaceLink (target path : String) : DiskStep DiskError Unit := do
  Disk.makeParents path
  if Disk.isThere ((← get).lookAtLink path) then Disk.remove path
  Disk.makeLink target path

/-- Make a link; stored files have been made before. -/
def createItem (output : String) : Item → DiskStep DiskError Unit
  | .file _ => pure ()
  | .link stored path => replaceLink (Location.join output stored) (Location.join output path)

/-- Carry out some steps in order. -/
def each {α : Type} (step : α → DiskStep DiskError Unit) : List α → DiskStep DiskError Unit
  | [] => pure ()
  | item :: rest => do
    step item
    each step rest

/-- Carry out changes in an output directory, first what is to be removed and then the links. -/
def carryOut (changes : Changes Item) (output : String) : DiskStep DiskError Unit := fun disk =>
  let output := disk.absolute output
  (do
    each (removeItem output) changes.removed
    each (createItem output) changes.created : DiskStep DiskError Unit) disk

end Changes

end TagStore
