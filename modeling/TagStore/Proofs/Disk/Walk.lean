import TagStore.Proofs.Disk.Location
import TagStore.Proofs.Index

/-!
# Walking along names

On a disk where everything stands in a directory, a walk along names that meets no link comes to the
place that the names say, and meets nothing but directories on its way.
-/

namespace TagStore
namespace Disk

open Location (IsName)

/-! ## Places -/

theorem node?_of_ne {disk : Disk} {place : Place} (nonempty : place ≠ []) :
    disk.node? place = disk.nodes.get? place := if_neg nonempty

@[simp]
theorem home_put (disk : Disk) (place : Place) (node : Node) :
    (disk.put place node).home = disk.home := rfl

@[simp]
theorem home_drop (disk : Disk) (place : Place) : (disk.drop place).home = disk.home := rfl

theorem node?_put {disk : Disk} {place : Place} (nonempty : place ≠ []) (node : Node)
    (other : Place) :
    (disk.put place node).node? other = if other = place then some node else disk.node? other := by
  by_cases root : other = []
  · subst root
    rw [if_neg (Ne.symm nonempty)]
    rfl
  · rw [node?_of_ne root, node?_of_ne root, put, Index.get?_insert]

theorem node?_put_cases (disk : Disk) (place : Place) (node : Node) (other : Place) :
    (disk.put place node).node? other = disk.node? other ∨
      other = place ∧ (disk.put place node).node? other = some node := by
  by_cases root : other = []
  · subst root
    exact .inl rfl
  · rw [node?_of_ne root, node?_of_ne root, put, Index.get?_insert]
    split
    · exact .inr ⟨‹_›, rfl⟩
    · exact .inl rfl

/-- Putting a node where it is changes nothing. -/
theorem put_of_node? {disk : Disk} {place : Place} {node : Node} (nonempty : place ≠ [])
    (there : disk.node? place = some node) : disk.put place node = disk := by
  rw [node?_of_ne nonempty] at there
  rw [put, Index.insert_of_get? there]

theorem node?_drop {disk : Disk} {place : Place} (nonempty : place ≠ []) (other : Place) :
    (disk.drop place).node? other = if other = place then none else disk.node? other := by
  by_cases root : other = []
  · subst root
    rw [if_neg (Ne.symm nonempty)]
    rfl
  · rw [node?_of_ne root, node?_of_ne root, drop, Index.get?_erase]

/-- Everything on a disk stands in a directory. -/
def IsTree (disk : Disk) : Prop :=
  ∀ place name node, disk.node? (place ++ [name]) = some node → disk.node? place = some .directory

theorem isTree_iff {disk : Disk} :
    disk.IsTree ↔ ∀ entry ∈ disk.nodes.entries, entry.1 ≠ [] →
      disk.node? entry.1.dropLast = some .directory := by
  constructor
  · rintro tree ⟨place, node⟩ member nonempty
    refine tree place.dropLast (place.getLast nonempty) node ?_
    rw [List.dropLast_concat_getLast, node?_of_ne nonempty]
    exact Index.get?_eq_some_iff.mpr member
  · intro above place name node there
    have nonempty : place ++ [name] ≠ [] := List.concat_ne_nil name place
    rw [node?_of_ne nonempty] at there
    have directory := above _ (Index.get?_eq_some_iff.mp there) nonempty
    rwa [List.dropLast_concat] at directory

instance (disk : Disk) : Decidable disk.IsTree := decidable_of_iff' _ isTree_iff

theorem IsTree.above {disk : Disk} (tree : disk.IsTree) {place : Place} {names : List String}
    (nonempty : names ≠ []) {node : Node} (found : disk.node? (place ++ names) = some node) :
    disk.node? place = some .directory := by
  induction names generalizing place with
  | nil => exact absurd rfl nonempty
  | cons name rest induction =>
      cases rest with
      | nil => exact tree _ _ _ found
      | cons next rest =>
          rw [List.append_cons] at found
          exact tree _ _ _ (induction (List.cons_ne_nil _ _) found)

theorem IsTree.free {disk : Disk} (tree : disk.IsTree) {place : Place} {names : List String}
    (nonempty : names ≠ []) (other : disk.node? place ≠ some .directory) :
    disk.node? (place ++ names) = none := by
  rw [Option.eq_none_iff_forall_ne_some]
  intro node found
  exact other (tree.above nonempty found)

/-! ## Single names -/

section Names

variable {disk : Disk} {aim : Aim} {onward : List String → Place → Except DiskError Spot}

theorem walkNames_idle {name : String} (idle : Location.isIdle name) (rest : List String)
    (here : Place) :
    disk.walkNames aim onward (name :: rest) here = disk.walkNames aim onward rest here := by
  rw [walkNames, if_pos idle]

theorem walkNames_tooLong {name : String} (isName : IsName name)
    (long : Location.nameLimit < name.utf8ByteSize) {rest : List String} (further : rest ≠ [""])
    (here : Place) : disk.walkNames aim onward (name :: rest) here = .error .nameTooLong := by
  rw [walkNames, if_neg (by simp [isName.not_isIdle]), if_neg isName.ne_up,
    if_neg (fun both => further both.2), if_pos long]

section Short

variable {name : String} {rest : List String} {here : Place} (isName : IsName name)
  (short : ¬Location.nameLimit < name.utf8ByteSize) (further : rest ≠ [""])

include isName short further

theorem walkNames_free (free : disk.node? (here ++ [name]) = none) :
    disk.walkNames aim onward (name :: rest) here =
      if rest = [] then .ok ⟨here ++ [name], none⟩ else .error .notFound := by
  simp [walkNames, isName.not_isIdle, isName.ne_up, further, short, free]

theorem walkNames_directory (directory : disk.node? (here ++ [name]) = some .directory) :
    disk.walkNames aim onward (name :: rest) here =
      disk.walkNames aim onward rest (here ++ [name]) := by
  simp [walkNames, isName.not_isIdle, isName.ne_up, further, short, directory]

theorem walkNames_file {content : ByteArray}
    (file : disk.node? (here ++ [name]) = some (.file content)) :
    disk.walkNames aim onward (name :: rest) here =
      if rest = [] then .ok ⟨here ++ [name], some (.file content)⟩ else .error .notDirectory := by
  simp [walkNames, isName.not_isIdle, isName.ne_up, further, short, file]

theorem walkNames_link {target : String}
    (link : disk.node? (here ++ [name]) = some (.link target)) :
    disk.walkNames aim onward (name :: rest) here =
      if rest = [] ∧ aim = .entry then .ok ⟨here ++ [name], some (.link target)⟩
      else onward (Location.namesBefore rest target)
        (if Location.isAbsolute target then [] else here) := by
  simp [walkNames, isName.not_isIdle, isName.ne_up, further, short, link]

end Short

theorem ne_singleton_empty {names : List String} (areNames : ∀ name ∈ names, IsName name) :
    names ≠ [""] := by
  rintro rfl
  exact (areNames "" (List.mem_singleton.mpr rfl)).ne_empty rfl

/-! ## Walks -/

/-- A link that names come to before their end leads nowhere. -/
def Blocks (disk : Disk) (onward : List String → Place → Except DiskError Spot) (here : Place)
    (names : List String) : Prop :=
  ∀ before later target, names = before ++ later → later ≠ [] →
    disk.node? (here ++ before) = some (.link target) →
    ∃ error, onward (Location.namesBefore later target)
      (if Location.isAbsolute target then [] else (here ++ before).dropLast) = .error error

theorem Blocks.tail {here : Place} {name : String} {rest : List String}
    (blocks : disk.Blocks onward here (name :: rest)) :
    disk.Blocks onward (here ++ [name]) rest := by
  intro before later target split nonempty found
  rw [List.append_assoc, List.singleton_append] at found ⊢
  apply blocks (name :: before) later target _ nonempty found
  rw [split, List.cons_append]

theorem spot_of_walkNames_singleton {here : Place} {name : String} {spot : Spot}
    (isName : IsName name)
    (final : aim = .entry ∨ ∀ target, disk.node? (here ++ [name]) ≠ some (.link target))
    (found : disk.walkNames aim onward [name] here = .ok spot) :
    spot = ⟨here ++ [name], disk.node? (here ++ [name])⟩ := by
  have further : [] ≠ [""] := (List.cons_ne_nil _ _).symm
  by_cases long : Location.nameLimit < name.utf8ByteSize
  · rw [walkNames_tooLong isName long further] at found
    cases found
  cases there : disk.node? (here ++ [name]) with
  | none =>
      rw [walkNames_free isName long further there, if_pos rfl] at found
      cases found
      rfl
  | some node =>
      cases node with
      | directory =>
          rw [walkNames_directory isName long further there] at found
          cases found
          rfl
      | file content =>
          rw [walkNames_file isName long further there, if_pos rfl] at found
          cases found
          rfl
      | link target =>
          rcases final with entry | other
          · rw [walkNames_link isName long further there, if_pos ⟨rfl, entry⟩] at found
            cases found
            rfl
          · exact absurd there (other target)

/-- A walk only goes on through directories. -/
theorem walkNames_onward {here : Place} {name : String} {rest : List String} {spot : Spot}
    (isName : IsName name) (nonempty : rest ≠ []) (further : rest ≠ [""])
    (blocks : disk.Blocks onward here (name :: rest))
    (found : disk.walkNames aim onward (name :: rest) here = .ok spot) :
    disk.node? (here ++ [name]) = some .directory ∧
      disk.walkNames aim onward rest (here ++ [name]) = .ok spot := by
  by_cases long : Location.nameLimit < name.utf8ByteSize
  · rw [walkNames_tooLong isName long further] at found
    cases found
  cases there : disk.node? (here ++ [name]) with
  | none =>
      rw [walkNames_free isName long further there, if_neg nonempty] at found
      cases found
  | some node =>
      cases node with
      | directory =>
          rw [walkNames_directory isName long further there] at found
          exact ⟨rfl, found⟩
      | file content =>
          rw [walkNames_file isName long further there, if_neg nonempty] at found
          cases found
      | link target =>
          obtain ⟨error, blocked⟩ := blocks [name] rest target rfl nonempty there
          rw [List.dropLast_concat] at blocked
          rw [walkNames_link isName long further there, if_neg fun both => nonempty both.1,
            blocked] at found
          cases found

/-- A walk that comes to an end has come to the place that the names say, through directories. -/
theorem spot_of_walkNames {here : Place} {names : List String} {spot : Spot}
    (areNames : ∀ name ∈ names, IsName name) (blocks : disk.Blocks onward here names)
    (start : disk.node? here = some .directory)
    (final : aim = .entry ∨ ∀ target, disk.node? (here ++ names) ≠ some (.link target))
    (found : disk.walkNames aim onward names here = .ok spot) :
    spot = ⟨here ++ names, disk.node? (here ++ names)⟩ ∧
      disk.node? (here ++ names.dropLast) = some .directory := by
  induction names generalizing here with
  | nil =>
      cases found
      simp [start]
  | cons name rest induction =>
      obtain ⟨isName, others⟩ := List.forall_mem_cons.mp areNames
      by_cases last : rest = []
      · subst last
        rw [List.dropLast_singleton, List.append_nil]
        exact ⟨spot_of_walkNames_singleton isName final found, start⟩
      · have further := ne_singleton_empty others
        obtain ⟨directory, found⟩ := walkNames_onward isName last further blocks found
        rw [List.append_cons] at final ⊢
        obtain ⟨here, above⟩ := induction others blocks.tail directory final found
        rw [List.append_assoc, List.singleton_append, ← List.dropLast_cons_of_ne_nil last] at above
        exact ⟨here, above⟩

/-- A walk comes to a node where names lead to one, unless a name is too long. -/
theorem walkNames_of_node {here : Place} {names : List String} {node : Node} (tree : disk.IsTree)
    (areNames : ∀ name ∈ names, IsName name) (nonempty : names ≠ [])
    (final : aim = .entry ∨ ∀ target, node ≠ .link target)
    (there : disk.node? (here ++ names) = some node) :
    disk.walkNames aim onward names here = .ok ⟨here ++ names, some node⟩ ∨
      disk.walkNames aim onward names here = .error .nameTooLong := by
  induction names generalizing here with
  | nil => exact absurd rfl nonempty
  | cons name rest induction =>
      obtain ⟨isName, others⟩ := List.forall_mem_cons.mp areNames
      have further := ne_singleton_empty others
      by_cases long : Location.nameLimit < name.utf8ByteSize
      · exact .inr (walkNames_tooLong isName long further here)
      by_cases last : rest = []
      · subst last
        left
        cases node with
        | file content => rw [walkNames_file isName long further there, if_pos rfl]
        | directory => exact walkNames_directory isName long further there
        | link target =>
            rcases final with entry | other
            · rw [walkNames_link isName long further there, if_pos ⟨rfl, entry⟩]
            · exact absurd rfl (other target)
      · have whole : here ++ name :: rest = here ++ [name] ++ rest := List.append_cons _ _ _
        rw [whole] at there ⊢
        rw [walkNames_directory isName long further (tree.above last there)]
        exact induction others last there

/-- A walk passes through directories, unless a name is too long. -/
theorem walkNames_through {here : Place} {names : List String} (tree : disk.IsTree)
    (areNames : ∀ name ∈ names, IsName name)
    (there : disk.node? (here ++ names) = some .directory) {rest : List String}
    (further : rest ≠ [""]) :
    disk.walkNames aim onward (names ++ rest) here =
        disk.walkNames aim onward rest (here ++ names) ∨
      disk.walkNames aim onward (names ++ rest) here = .error .nameTooLong := by
  induction names generalizing here with
  | nil =>
      rw [List.append_nil]
      exact .inl rfl
  | cons name others induction =>
      obtain ⟨isName, later⟩ := List.forall_mem_cons.mp areNames
      have further : others ++ rest ≠ [""] := by
        cases others with
        | nil => exact further
        | cons next others =>
            intro same
            obtain ⟨rfl, _⟩ := List.cons.inj same
            exact (later "" List.mem_cons_self).ne_empty rfl
      have whole : here ++ name :: others = here ++ [name] ++ others := List.append_cons _ _ _
      rw [whole] at there ⊢
      rw [List.cons_append]
      by_cases long : Location.nameLimit < name.utf8ByteSize
      · exact .inr (walkNames_tooLong isName long further here)
      have directory : disk.node? (here ++ [name]) = some .directory := by
        cases others with
        | nil => rwa [List.append_nil] at there
        | cons => exact tree.above (List.cons_ne_nil _ _) there
      rw [walkNames_directory isName long further directory]
      exact induction later there

end Names

end Disk
end TagStore
