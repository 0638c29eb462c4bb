import TagStore.Proofs.Disk.Meets
import TagStore.Proofs.Disk.Steps

/-!
# Steps that leave reserved names alone

Some names are reserved.  What a step puts on a disk or takes away has the last name of a path that
the step is given, wherever links may lead, or, if it is a directory on the way, one of its names.
So as long as none of these names is reserved, everything under a reserved name stays.  The names
that lead from the root to the output directory make no difference, since nothing is made on a way
that is there.
-/

namespace TagStore

namespace Location

variable {way : List String} {reserved : String → Prop} {path parent : String}

/-- A path with no reserved name, or one from the root with none but those of a way. -/
def IsClear (way : List String) (reserved : String → Prop) (path : String) : Prop :=
  (∀ name ∈ namesOfEntry path, ¬reserved name) ∨
    isAbsolute path ∧ ∃ others, namesOfEntry path <+: way ++ others ∧
      ∀ name ∈ others, ¬reserved name

theorem isClear_empty : IsClear way reserved "" := by
  have none : namesOfEntry "" = [] := by decide
  refine .inl fun name member => ?_
  rw [none] at member
  cases member

theorem IsClear.of_parent? (clear : IsClear way reserved path)
    (found : parent? path = some parent) : IsClear way reserved parent := by
  by_cases written : parent = ""
  · rw [written]
    exact isClear_empty
  · obtain ⟨later, names, -⟩ := namesOfEntry_of_parent? found written
    have shorter : namesOfEntry parent <+: namesOfEntry path := ⟨later, names.symm⟩
    rcases clear with free | ⟨absolute, others, leads, free⟩
    · exact .inl fun name member => free name (shorter.subset member)
    · rw [isAbsolute_of_parent? found written] at absolute
      exact .inr ⟨absolute, others, shorter.trans leads, free⟩

/-- A clear path leads from the root along the way, or its last name is not reserved. -/
theorem IsClear.last (clear : IsClear way reserved path) :
    isAbsolute path ∧ namesOfEntry path <+: way ∨
      ∀ name ∈ (namesOfEntry path).getLast?, ¬reserved name := by
  rcases clear with free | ⟨absolute, others, leads, free⟩
  · exact .inr fun name last => free name (List.mem_of_getLast? last)
  · rcases List.prefix_or_prefix_of_prefix leads (List.prefix_append way others) with
      above | ⟨inner, names⟩
    · exact .inl ⟨absolute, above⟩
    · by_cases none : inner = []
      · rw [none, List.append_nil] at names
        exact .inl ⟨absolute, names ▸ List.prefix_rfl⟩
      · refine .inr fun name last => free name ?_
        rw [← names] at leads last
        have among := (List.prefix_append_right_inj way).mp leads
        rw [List.getLast?_append, List.getLast?_eq_some_getLast none, Option.some_or] at last
        exact among.subset (Option.some.inj last ▸ List.getLast_mem none)

end Location

namespace Disk

open Location (IsClear)

variable {start disk before after : Disk} {place : Place} {met reserved gone : String → Prop}
  {path output name : String} {node : Option Node} {limit : Nat} {there : Place}

/-! ## Places that paths lead to -/

/-- An entry that is no directory, or a free place for one, has the last name of its path. -/
theorem IsRooted.entry (rooted : disk.IsRooted) (found : disk.lookAtEntry path = .ok ⟨place, node⟩)
    (other : node ≠ some .directory) :
    disk.node? place = node ∧ ∃ above name, place = above ++ [name] ∧
      disk.node? above = some .directory ∧ (Location.namesOfEntry path).getLast? = some name := by
  have arrives := (find_eq_ok_iff.mp found).2
  obtain ⟨above, name, same, directory⟩ :=
    arrives.in_directory rooted.tree (rooted.base_directory path) other
  have last := arrives.getLast?_eq other
  refine ⟨arrives.node?_eq other, above, name, same, directory, ?_⟩
  rw [← last]
  simp only at same
  rw [same, List.getLast?_concat]

/-- A free place that a clear path leads to has a name that is not reserved. -/
theorem Reaches.entry_clear (reaches : disk.Reaches output limit there) (rooted : disk.IsRooted)
    (clear : IsClear (disk.way output) reserved path)
    (found : disk.lookAtEntry path = .ok ⟨place, none⟩) :
    disk.node? place = none ∧ ∃ above name, place = above ++ [name] ∧
      disk.node? above = some .directory ∧ ¬reserved name := by
  obtain ⟨free, outer, name, same, directory, last⟩ := rooted.entry found nofun
  refine ⟨free, outer, name, same, directory, ?_⟩
  rcases clear.last with ⟨absolute, along⟩ | other
  · exact absurd found (reaches.not_free rooted absolute along)
  · exact other name last

/-! ## Shielding -/

/-- Everything under a reserved name stays as it is, unless the name may go. -/
structure Shields (reserved gone : String → Prop) (before after : Disk) : Prop where
  rooted : after.IsRooted
  home : after.home = before.home
  nodes : ∀ place name, reserved name →
    after.node? (place ++ [name]) = before.node? (place ++ [name]) ∨
      gone name ∧ after.node? (place ++ [name]) = none

theorem Shields.refl (rooted : disk.IsRooted) : disk.Shields reserved gone disk :=
  ⟨rooted, rfl, fun _ _ _ => .inl rfl⟩

theorem Shields.trans {between : Disk} (first : before.Shields reserved gone between)
    (second : between.Shields reserved gone after) : before.Shields reserved gone after where
  rooted := second.rooted
  home := second.home.trans first.home
  nodes := by
    intro place name isReserved
    rcases second.nodes place name isReserved with same | gone
    · rw [same]
      exact first.nodes place name isReserved
    · exact .inr gone

/-- Disks agree on reserved names that do not go. -/
theorem Shields.agrees (shields : before.Shields reserved gone after)
    (keeps : ∀ name, met name → reserved name ∧ ¬gone name) : before.Agrees met after where
  home := shields.home
  nodes := by
    intro place name isMet
    obtain ⟨isReserved, stays⟩ := keeps name isMet
    exact (shields.nodes place name isReserved).resolve_right fun goes => stays goes.1

theorem shields_put (rooted : disk.IsRooted) (free : disk.node? (place ++ [name]) = none)
    (above : disk.node? place = some .directory) (other : ¬reserved name) (node : Node) :
    disk.Shields reserved gone (disk.put (place ++ [name]) node) where
  rooted := rooted.put (by simp [free]) above node
  home := rfl
  nodes := by
    intro here last isReserved
    rcases disk.node?_put_cases (place ++ [name]) node (here ++ [last]) with same | ⟨same, -⟩
    · exact .inl same
    · cases (List.append_inj' same rfl).2
      exact absurd isReserved other

theorem shields_drop (rooted : disk.IsRooted)
    (other : disk.node? (place ++ [name]) ≠ some .directory) (may : reserved name → gone name) :
    disk.Shields reserved gone (disk.drop (place ++ [name])) where
  rooted := rooted.drop other
  home := rfl
  nodes := by
    intro here last isReserved
    rw [node?_drop (by simp)]
    split
    · rename_i same
      cases (List.append_inj' same rfl).2
      exact .inr ⟨may isReserved, rfl⟩
    · exact .inl rfl

/-! ## Steps -/

/-- A step that leaves reserved names alone, unless they may go, on rooted disks that agree with a
disk on certain names. -/
abbrev StepShields (start : Disk) (met reserved gone : String → Prop)
    (step : DiskStep DiskError Unit) : Prop :=
  step.Within fun before after =>
    before.IsRooted → start.Agrees met before → before.Shields reserved gone after

/-- A node that is put where a clear path leads leaves reserved names alone, as long as the output
directory is there. -/
theorem Secures.shields_put (secures : start.Secures met output)
    (clear : IsClear (start.way output) reserved path) (rooted : disk.IsRooted)
    (agrees : start.Agrees met disk) (found : disk.lookAtEntry path = .ok ⟨place, none⟩)
    (node : Node) : disk.Shields reserved gone (disk.put place node) := by
  obtain ⟨limit, there, reaches⟩ := secures disk agrees
  obtain ⟨free, above, name, rfl, directory, other⟩ :=
    reaches.entry_clear rooted (agrees.way_eq output ▸ clear) found
  exact Disk.shields_put rooted free directory other node

section Steps

variable (keeps : ∀ name, met name → reserved name ∧ ¬gone name)

include keeps

theorem chains_shields : Chains fun before after =>
    before.IsRooted → start.Agrees met before → before.Shields reserved gone after where
  refl := fun _ rooted _ => .refl rooted
  trans := by
    intro before between after first second rooted agrees
    have first := first rooted agrees
    exact first.trans (second first.rooted (agrees.trans (first.agrees keeps)))

theorem shields_remove
    (may : Location.endsInSlash path = false → ∀ name ∈ (Location.namesOfEntry path).getLast?,
      reserved name → gone name) : StepShields start met reserved gone (remove path) := by
  refine (chains_shields keeps).remove ?_
  intro named disk place node found other rooted _
  have apart : some node ≠ some .directory := fun same => other (Option.some.inj same)
  obtain ⟨there, above, name, rfl, directory, last⟩ := rooted.entry found apart
  exact shields_drop rooted (there ▸ apart) (may named name last)

/-- Making the directories above a clear path leaves reserved names alone. -/
theorem shields_makeParents (secures : start.Secures met output)
    (clear : IsClear (start.way output) reserved path) :
    StepShields start met reserved gone (makeParents path) := by
  have chains := @chains_shields start met reserved gone keeps
  refine chains.makeParents (IsClear (start.way output) reserved) (fun _ clear => ?_)
    (fun _ _ => .of_parent?) clear
  exact chains.makeDirectory fun _ _ found rooted agrees =>
    secures.shields_put clear rooted agrees found _

theorem shields_makeLink {target : String} (secures : start.Secures met output)
    (clear : IsClear (start.way output) reserved path) :
    StepShields start met reserved gone (makeLink target path) :=
  (chains_shields keeps).makeLink fun _ _ found rooted agrees =>
    secures.shields_put clear rooted agrees found _

end Steps

end Disk
end TagStore
