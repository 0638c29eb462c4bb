import TagStore.Proofs.Disk.Steps
import TagStore.Proofs.Disk.Walk

/-!
# Steps that spare reserved names

Some names are reserved.  On a disk where no link leads to a reserved name, a path that ends in
another name leads to a place with another name or to a directory.  A step on such a path therefore
spares what is under a reserved name, unless it removes it or finds the place free for a directory.
Nothing is asked of the disk beyond its links.
-/

namespace TagStore

open Location (IsName)

namespace Location

variable {reserved all rest : List String} {path name : String}

/-- Names that do not end in a reserved one. -/
def Avoids (reserved names : List String) : Prop := ∀ name ∈ names.getLast?, name ∉ reserved

theorem Avoids.tail (avoids : Avoids reserved (name :: rest)) : Avoids reserved rest := by
  cases rest with
  | nil => simp [Avoids]
  | cons next rest => simpa [Avoids] using avoids

theorem avoids_concat : Avoids reserved (all ++ [name]) ↔ name ∉ reserved := by simp [Avoids]

theorem Avoids.namesBefore (avoids : Avoids reserved rest)
    (onward : Avoids reserved (names path)) :
    Avoids reserved (namesBefore rest path) := by
  rw [Location.namesBefore]
  split
  · exact onward
  · rename_i nonempty
    have last := List.getLast?_eq_some_getLast nonempty
    rwa [Avoids, List.getLast?_append, last, Option.some_or, ← last]

theorem EndsIn.avoids_namesOfEntry (ends : EndsIn path name) (isName : IsName name)
    (free : name ∉ reserved) : Avoids reserved (namesOfEntry path) := by
  intro last listed
  rw [ends.getLast?_eq isName.ne_empty isName.slash_free, Option.mem_some_iff] at listed
  exact listed ▸ free

theorem EndsIn.avoids_names (ends : EndsIn path name) (isName : IsName name)
    (free : name ∉ reserved) : Avoids reserved (names path) := by
  rw [names, ends.endsInSlash_eq isName, if_neg Bool.false_ne_true, List.append_nil]
  exact ends.avoids_namesOfEntry isName free

end Location

namespace Disk

open Location (Avoids)

variable {reserved names : List String} {disk between after : Disk} {aim : Aim} {here place : Place}
  {spot : Spot} {path : String}

/-! ## Where paths lead -/

/-- No link on a disk leads to a reserved name. -/
def LinksAvoid (reserved : List String) (disk : Disk) : Prop :=
  ∀ place target, disk.node? place = some (.link target) → Avoids reserved (Location.names target)

/-- A place with a name that is not reserved, or a directory. -/
def Spot.Avoids (reserved : List String) (spot : Spot) : Prop :=
  spot.node = some .directory ∨ Location.Avoids reserved spot.place

theorem avoids_of_walkNames (links : disk.LinksAvoid reserved)
    {onward : List String → Place → Except DiskError Spot}
    (further : ∀ {names here spot}, Avoids reserved names → onward names here = .ok spot →
      spot.Avoids reserved)
    (avoids : Avoids reserved names) (found : disk.walkNames aim onward names here = .ok spot) :
    spot.Avoids reserved := by
  -- A spot with the last name stands at a place with this name.
  have last {name : String} {above : Place} {node : Option Node}
      (avoids : Avoids reserved [name]) : Spot.Avoids reserved ⟨above ++ [name], node⟩ :=
    .inr (Location.avoids_concat.mpr (@Location.avoids_concat _ [] _ |>.mp avoids))
  fun_induction walkNames disk aim onward names here with
  | case1 =>
      cases found
      exact .inl rfl
  -- Names that mean nothing by themselves, the name of the directory above, and directories.
  | case2 | case3 | case8 =>
      rename_i induction
      exact induction avoids.tail found
  -- Refused names, and names behind something that is no directory.
  | case4 | case5 | case7 | case10 => cases found
  -- The last name, of nothing, of a file and of a link that is itself aimed at.
  | case6 | case9 =>
      cases found
      exact last avoids
  | case11 =>
      rename_i final
      obtain ⟨rfl, -⟩ := final
      cases found
      exact last avoids
  -- A link on the way.
  | case12 =>
      rename_i link _
      exact further (avoids.tail.namesBefore (links _ _ link)) found

theorem avoids_of_walk (links : disk.LinksAvoid reserved) {limit : Nat}
    (avoids : Avoids reserved names) (found : disk.walk aim limit names here = .ok spot) :
    spot.Avoids reserved := by
  induction limit generalizing names here spot with
  | zero =>
      refine avoids_of_walkNames links ?_ avoids found
      intro _ _ _ _ refused
      cases refused
  | succ limit induction => exact avoids_of_walkNames links induction avoids found

theorem avoids_of_find (links : disk.LinksAvoid reserved) (avoids : Avoids reserved names)
    (found : disk.find aim path names = .ok spot) : spot.Avoids reserved := by
  simp only [find] at found
  split at found
  · cases found
  · exact avoids_of_walk links avoids found

/-! ## Sparing -/

/-- Under a reserved name there is what was there, or nothing, or a directory. -/
structure Spares (reserved : List String) (before after : Disk) : Prop where
  home : after.home = before.home
  links : after.LinksAvoid reserved
  nodes : ∀ place, ¬Avoids reserved place → after.node? place = before.node? place ∨
    after.node? place = none ∨ after.node? place = some .directory

theorem Spares.refl (links : disk.LinksAvoid reserved) : disk.Spares reserved disk :=
  ⟨rfl, links, fun _ _ => .inl rfl⟩

theorem Spares.trans (first : disk.Spares reserved between)
    (second : between.Spares reserved after) : disk.Spares reserved after where
  home := second.home.trans first.home
  links := second.links
  nodes := by
    intro place taken
    rcases second.nodes place taken with same | gone
    · rw [same]
      exact first.nodes place taken
    · exact .inr gone

theorem node?_drop_cases (disk : Disk) (place other : Place) :
    (disk.drop place).node? other = disk.node? other ∨ (disk.drop place).node? other = none := by
  by_cases root : other = []
  · subst root
    exact .inl rfl
  · rw [node?_of_ne root, node?_of_ne root, drop, Index.get?_erase]
    split
    · exact .inr rfl
    · exact .inl rfl

theorem Spares.put (links : disk.LinksAvoid reserved) {node : Node}
    (avoids : node = .directory ∨ Avoids reserved place)
    (onward : ∀ target, node = .link target → Avoids reserved (Location.names target)) :
    disk.Spares reserved (disk.put place node) where
  home := rfl
  links := by
    intro other target there
    rcases disk.node?_put_cases place node other with same | ⟨-, new⟩
    · exact links other target (same ▸ there)
    · rw [new, Option.some.injEq] at there
      exact onward target there
  nodes := by
    intro other taken
    rcases disk.node?_put_cases place node other with same | ⟨rfl, new⟩
    · exact .inl same
    · rcases avoids with rfl | avoids
      · exact .inr (.inr new)
      · exact absurd avoids taken

theorem Spares.drop (links : disk.LinksAvoid reserved) (place : Place) :
    disk.Spares reserved (disk.drop place) where
  home := rfl
  links := by
    intro other target there
    rcases disk.node?_drop_cases place other with same | gone
    · exact links other target (same ▸ there)
    · rw [gone] at there
      cases there
  nodes := by
    intro other _
    exact (disk.node?_drop_cases place other).imp_right .inl

end Disk

/-! ## Steps -/

namespace DiskStep

open Location (Avoids)

variable {ε α β : Type} {reserved : List String}

/-- A step that spares what is under reserved names. -/
def Spares (reserved : List String) (step : DiskStep ε α) : Prop :=
  ∀ disk : Disk, disk.LinksAvoid reserved → disk.Spares reserved (step.left disk)

theorem Spares.ok {step : DiskStep ε α} (spares : step.Spares reserved) {disk after : Disk}
    {value : α} (links : disk.LinksAvoid reserved) (done : step disk = .ok value after) :
    disk.Spares reserved after :=
  left_ok done ▸ spares disk links

theorem Spares.error {step : DiskStep ε α} (spares : step.Spares reserved) {disk after : Disk}
    {error : ε} (links : disk.LinksAvoid reserved) (failed : step disk = .error error after) :
    disk.Spares reserved after :=
  left_error failed ▸ spares disk links

theorem chains_spares (reserved : List String) :
    Chains fun before after => before.LinksAvoid reserved → before.Spares reserved after where
  refl := fun _ => .refl
  trans := fun first second links => (first links).trans (second (first links).links)

theorem Spares.bind {first : DiskStep ε α} {next : α → DiskStep ε β}
    (one : first.Spares reserved) (two : ∀ value, (next value).Spares reserved) :
    Spares reserved (first >>= next) :=
  (chains_spares reserved).bind one two

end DiskStep

namespace Disk

open DiskStep (chains_spares)
open Location (Avoids)

variable {reserved : List String} {path : String}

theorem spares_makeParents (path : String) : (makeParents path).Spares reserved := by
  refine (chains_spares reserved).makeParents (fun _ => True) (fun path _ => ?_)
    (fun _ _ _ _ => trivial) trivial
  exact (chains_spares reserved).makeDirectory fun disk place _ links =>
    .put links (.inl rfl) fun _ link => nomatch link

theorem spares_remove (path : String) : (remove path).Spares reserved :=
  (chains_spares reserved).remove fun _ _ place _ _ _ links => .drop links place

theorem spares_write (avoids : Avoids reserved (Location.names path)) (content : ByteArray) :
    (write path content).Spares reserved := by
  refine (chains_spares reserved).write fun disk place node found other links => ?_
  rcases avoids_of_find links avoids found with directory | apart
  · exact absurd directory other
  · exact .put links (.inr apart) fun _ link => nomatch link

theorem spares_makeLink {target : String} (onward : Avoids reserved (Location.names target))
    (avoids : Avoids reserved (Location.namesOfEntry path)) :
    (makeLink target path).Spares reserved := by
  refine (chains_spares reserved).makeLink fun disk place found links => ?_
  rcases avoids_of_find links avoids found with directory | apart
  · cases directory
  · exact .put links (.inr apart) fun _ link => Node.link.inj link ▸ onward

theorem spares_place (avoids : Avoids reserved (Location.names path)) (content : ByteArray) :
    (place path content).Spares reserved :=
  (spares_makeParents path).bind fun _ => spares_write avoids content

end Disk
end TagStore
