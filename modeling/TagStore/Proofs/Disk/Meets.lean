import TagStore.Proofs.Disk.Follow
import TagStore.Proofs.Disk.Reach

/-!
# Names that are looked up

On its way a walk looks up one name after another, those of the path and those of what links point
at.  Disks that have the same under these names, wherever it stands, lead the path to the same place
or refuse it for the same reason.
-/

namespace TagStore
namespace Disk

open Location (IsName leadsOn)

variable {before after disk : Disk} {aim : Aim} {limit : Nat} {stage next : Stage}
  {names rest : List String} {here there : Place} {path output name last : String}
  {met : String → Prop}

/-- A walk from a stage comes to look up a name. -/
def Looks (disk : Disk) (aim : Aim) (stage : Stage) (name : String) : Prop :=
  leadsOn name ∧ ∃ limit rest here,
    Relation.ReflTransGen (Moves disk aim) stage ⟨limit, name :: rest, here⟩

/-- A name is looked up when a path is followed, whatever for. -/
def Meets (disk : Disk) (path name : String) : Prop :=
  ∃ aim, disk.Looks aim ⟨linkLimit, Location.names path, disk.base path⟩ name

theorem Looks.head (moves : Moves disk aim stage next) (looks : disk.Looks aim next name) :
    disk.Looks aim stage name := by
  obtain ⟨on, limit, rest, here, later⟩ := looks
  exact ⟨on, limit, rest, here, later.head moves⟩

theorem looks_here (on : leadsOn name) : disk.Looks aim ⟨limit, name :: rest, here⟩ name :=
  ⟨on, limit, rest, here, .refl⟩

/-! ## Names of links -/

instance (node : Node) : Decidable (∃ target, node = .link target) :=
  match node with
  | .link target => isTrue ⟨target, rfl⟩
  | .file _ | .directory => isFalse (by simp)

/-- No link has one of certain names. -/
def IsUnlinked (names : List String) (disk : Disk) : Prop :=
  ∀ place, ∀ name ∈ names, ∀ target, disk.node? (place ++ [name]) ≠ some (.link target)

theorem isUnlinked_iff : disk.IsUnlinked names ↔
    ∀ entry ∈ disk.nodes.entries, ∀ name ∈ entry.1.getLast?, name ∈ names →
      ¬∃ target, entry.2 = .link target := by
  constructor
  · rintro unlinked ⟨place, node⟩ member name last listed ⟨target, rfl⟩
    obtain ⟨above, rfl⟩ := List.getLast?_eq_some_iff.mp last
    refine unlinked above name listed target ?_
    rw [node?_of_ne (List.concat_ne_nil _ _)]
    exact Index.get?_eq_some_iff.mpr member
  · intro unlinked place name listed target link
    rw [node?_of_ne (List.concat_ne_nil _ _)] at link
    exact unlinked _ (Index.get?_eq_some_iff.mp link) name List.getLast?_concat listed ⟨target, rfl⟩

instance (names : List String) (disk : Disk) : Decidable (disk.IsUnlinked names) :=
  decidable_of_iff' _ isUnlinked_iff

theorem IsUnlinked.mono {others : List String} (unlinked : disk.IsUnlinked others)
    (among : names ⊆ others) : disk.IsUnlinked names :=
  fun place name listed => unlinked place name (among listed)

/-- A move that meets no link leaves only names that were there before. -/
theorem Moves.names_subset (moves : Moves disk aim stage next)
    (unlinked : disk.IsUnlinked stage.names) : next.names ⊆ stage.names := by
  cases moves with
  | idle | up | directory => exact List.subset_cons_self _ _
  | link _ link _ => exact absurd link (unlinked _ _ List.mem_cons_self _)

theorem names_subset_of_moves (moves : Relation.ReflTransGen (Moves disk aim) stage next)
    (unlinked : disk.IsUnlinked stage.names) : next.names ⊆ stage.names := by
  induction moves with
  | refl => exact List.Subset.refl _
  | tail _ last induction =>
      exact List.Subset.trans (last.names_subset (unlinked.mono induction)) induction

/-- If no link has a name of a path, nothing but these names is looked up. -/
theorem Meets.mem_names (meets : disk.Meets path name)
    (unlinked : disk.IsUnlinked (Location.names path)) : name ∈ Location.names path := by
  obtain ⟨aim, -, limit, rest, here, moves⟩ := meets
  exact names_subset_of_moves moves unlinked List.mem_cons_self

/-! ## Disks that agree -/

/-- Two disks have the same under certain names, wherever it stands. -/
structure Agrees (met : String → Prop) (before after : Disk) : Prop where
  home : after.home = before.home
  nodes : ∀ place name, met name → after.node? (place ++ [name]) = before.node? (place ++ [name])

theorem Agrees.refl (met : String → Prop) (disk : Disk) : disk.Agrees met disk :=
  ⟨rfl, fun _ _ _ => rfl⟩

theorem Agrees.trans {between : Disk} (first : before.Agrees met between)
    (second : between.Agrees met after) : before.Agrees met after where
  home := second.home.trans first.home
  nodes := fun place name isMet =>
    (second.nodes place name isMet).trans (first.nodes place name isMet)

theorem Agrees.way_eq (agrees : before.Agrees met after) (output : String) :
    after.way output = before.way output := by
  rw [way, way, base, base, agrees.home]

/-- Where disks agree on all names that a walk looks up, it leads to the same. -/
theorem Agrees.walk_eq (agrees : before.Agrees met after)
    (covers : ∀ name, before.Looks aim ⟨limit, names, here⟩ name → met name) :
    after.walk aim limit names here = before.walk aim limit names here := by
  induction limit using Nat.strongRecOn generalizing names here with
  | ind limit fewer =>
      induction names generalizing here with
      | nil => rw [Disk.walk_eq, Disk.walk_eq, walkNames, walkNames]
      | cons name rest induction =>
          have goesOn {here : Place} (moves : Moves before aim ⟨limit, name :: rest, _⟩
              ⟨limit, rest, here⟩) :=
            induction fun other looks => covers other (looks.head moves)
          by_cases idle : Location.isIdle name
          · rw [(Moves.idle idle).walk_eq, (Moves.idle idle).walk_eq]
            exact goesOn (.idle idle)
          by_cases up : name = ".."
          · subst up
            rw [Moves.up.walk_eq, Moves.up.walk_eq]
            exact goesOn .up
          have on : leadsOn name := by simp [leadsOn, idle, up]
          have same := agrees.nodes here name (covers name (looks_here on))
          simp only [Disk.walk_eq, walkNames, if_neg idle, if_neg up, same]
          refine ite_congr rfl (fun _ => rfl) fun admitted => ?_
          refine ite_congr rfl (fun _ => rfl) fun short => ?_
          have enters : Enters aim name rest := ⟨idle, up, admitted, short⟩
          rcases there : before.node? (here ++ [name]) with _ | content | target | _
          · rfl
          · rfl
          · refine ite_congr rfl (fun _ => rfl) fun final => ?_
            cases limit with
            | zero => rfl
            | succ limit =>
                exact fewer limit (Nat.lt_succ_self limit) fun other looks =>
                  covers other (looks.head (.link enters there final))
          · simpa only [Disk.walk_eq] using goesOn (.directory enters there)

theorem Agrees.lookForFile_eq (agrees : before.Agrees met after)
    (covers : ∀ name, before.Meets path name → met name) :
    after.lookForFile path = before.lookForFile path := by
  have same := agrees.walk_eq fun name looks => covers name ⟨.file, looks⟩
  rw [base] at same
  simp only [lookForFile, find, agrees.home, same]

/-! ## Directories that stay -/

/-- An output directory is there on every disk that agrees on certain names. -/
def Secures (met : String → Prop) (output : String) (disk : Disk) : Prop :=
  ∀ after, disk.Agrees met after → ∃ limit there, after.Reaches output limit there

theorem secures_dot (met : String → Prop) (disk : Disk) : disk.Secures met "." :=
  fun after _ => ⟨_, _, reaches_dot after⟩

/-- A directory stays there as long as the names on the way to something in it are left alone. -/
theorem Reaches.secures (reaches : disk.Reaches output limit there) (isName : IsName last)
    (short : ¬Location.nameLimit < last.utf8ByteSize)
    (covers : ∀ name, disk.Meets (Location.join output last) name → met name) :
    disk.Secures met output := by
  intro after agrees
  have names := Location.names_join_name reaches.written isName
  have base : disk.base (Location.join output last) = disk.base output := by
    rw [Disk.base, Location.isAbsolute_join isName.relative reaches.written, Disk.base]
  have nonempty : [last] ≠ [] := List.cons_ne_nil _ _
  have further : [last] ≠ [""] := by simpa using isName.ne_empty
  have found := (reaches.passes.walk_eq .entry nonempty further).trans
    (walk_entry isName short limit there)
  rw [← agrees.walk_eq fun name looks => covers name ⟨.entry, names ▸ base ▸ looks⟩] at found
  obtain ⟨left, place, passes⟩ := (walk_eq_ok_iff.mp found).exists_passes nonempty
  refine ⟨left, place, reaches.written, ?_⟩
  rwa [Disk.base, agrees.home, ← Disk.base]

end Disk
end TagStore
