import Mathlib.Logic.Relation
import TagStore.Proofs.Disk.Spares
import TagStore.Proofs.Disk.Home

/-!
# Routes

A walk goes on name by name, through directories and along links, until it ends at a directory or at
its last name.  What a walk finds is found by such a route, and every route is that of a walk.  So
what a change to a disk does to walks is settled by what it does to one stage of a route.
-/

namespace TagStore
namespace Disk

open Location (namesBefore)

/-- A stage of a walk. -/
structure Stage where
  /-- The number of links that may still be followed. -/
  limit : Nat
  /-- The names that are left. -/
  names : List String
  /-- The directory that has been reached. -/
  here : Place

/-- A name is looked up in the directory that has been reached. -/
structure Enters (aim : Aim) (name : String) (rest : List String) : Prop where
  not_idle : ¬Location.isIdle name
  ne_up : name ≠ ".."
  admitted : ¬(aim = .file ∧ rest = [""])
  short : ¬Location.nameLimit < name.utf8ByteSize

/-- What a walk can end with at its last name. -/
structure Aim.Stops (aim : Aim) (node : Option Node) : Prop where
  not_directory : node ≠ some .directory
  link : ∀ target, node = some (.link target) → aim = .entry

theorem Aim.stops_none (aim : Aim) : aim.Stops none := ⟨nofun, nofun⟩

theorem Aim.stops_file (aim : Aim) (content : ByteArray) : aim.Stops (some (.file content)) :=
  ⟨nofun, nofun⟩

theorem Aim.stops_link {aim : Aim} (entry : aim = .entry) (target : String) :
    aim.Stops (some (.link target)) :=
  ⟨nofun, fun _ _ => entry⟩

variable {disk before after : Disk} {aim : Aim} {limit : Nat} {names later rest : List String}
  {name : String} {here place : Place} {node : Option Node} {spot : Spot} {stage next : Stage}

/-- A walk goes on by one name. -/
inductive Moves (disk : Disk) (aim : Aim) : Stage → Stage → Prop
  /-- A name that means nothing by itself is passed over. -/
  | idle {limit : Nat} {name : String} {rest : List String} {here : Place} :
      Location.isIdle name → Moves disk aim ⟨limit, name :: rest, here⟩ ⟨limit, rest, here⟩
  /-- Two dots lead to the directory above. -/
  | up {limit : Nat} {rest : List String} {here : Place} :
      Moves disk aim ⟨limit, ".." :: rest, here⟩ ⟨limit, rest, here.dropLast⟩
  /-- The name of a directory leads into it. -/
  | directory {limit : Nat} {name : String} {rest : List String} {here : Place} :
      Enters aim name rest → disk.node? (here ++ [name]) = some .directory →
      Moves disk aim ⟨limit, name :: rest, here⟩ ⟨limit, rest, here ++ [name]⟩
  /-- The name of a link leads to what it points at. -/
  | link {limit : Nat} {name target : String} {rest : List String} {here : Place} :
      Enters aim name rest → disk.node? (here ++ [name]) = some (.link target) →
      ¬(rest = [] ∧ aim = .entry) →
      Moves disk aim ⟨limit + 1, name :: rest, here⟩
        ⟨limit, namesBefore rest target, if Location.isAbsolute target then [] else here⟩

/-- A walk ends. -/
inductive Ends (disk : Disk) (aim : Aim) : Stage → Spot → Prop
  /-- No names are left. -/
  | here {limit : Nat} {here : Place} : Ends disk aim ⟨limit, [], here⟩ ⟨here, some .directory⟩
  /-- The last name is that of something that leads nowhere else, or of nothing. -/
  | last {limit : Nat} {name : String} {here : Place} {node : Option Node} :
      Enters aim name [] → disk.node? (here ++ [name]) = node → aim.Stops node →
      Ends disk aim ⟨limit, [name], here⟩ ⟨here ++ [name], node⟩

/-- A walk goes on until it ends. -/
inductive Arrives (disk : Disk) (aim : Aim) : Stage → Spot → Prop
  /-- It ends where it is. -/
  | ends {stage : Stage} {spot : Spot} : Ends disk aim stage spot → Arrives disk aim stage spot
  /-- It goes on. -/
  | moves {stage next : Stage} {spot : Spot} :
      Moves disk aim stage next → Arrives disk aim next spot → Arrives disk aim stage spot

/-! ## Walks and routes -/

/-- What is followed once a link has been met. -/
def onward (disk : Disk) (aim : Aim) : Nat → List String → Place → Except DiskError Spot
  | 0 => fun _ _ => .error .tooManyLinks
  | limit + 1 => disk.walk aim limit

theorem walk_eq (disk : Disk) (aim : Aim) (limit : Nat) (names : List String) (here : Place) :
    disk.walk aim limit names here = disk.walkNames aim (disk.onward aim limit) names here := by
  cases limit with
  | zero => rfl
  | succ limit => rfl

theorem Moves.walk_eq (moves : Moves disk aim stage next) :
    disk.walk aim stage.limit stage.names stage.here =
      disk.walk aim next.limit next.names next.here := by
  cases moves with
  | idle idle => rw [Disk.walk_eq, Disk.walk_eq, walkNames_idle idle]
  | up =>
      rw [Disk.walk_eq, Disk.walk_eq, walkNames]
      exact (if_neg (by decide)).trans (if_pos rfl)
  | directory enters directory =>
      rw [Disk.walk_eq, Disk.walk_eq, walkNames, if_neg enters.not_idle, if_neg enters.ne_up,
        if_neg enters.admitted, if_neg enters.short]
      simp only [directory]
  | link enters link goesOn =>
      rw [Disk.walk_eq, walkNames, if_neg enters.not_idle, if_neg enters.ne_up,
        if_neg enters.admitted, if_neg enters.short]
      simp only [link, if_neg goesOn]
      rfl

theorem Ends.walk_eq (ends : Ends disk aim stage spot) :
    disk.walk aim stage.limit stage.names stage.here = .ok spot := by
  cases ends with
  | here => rw [Disk.walk_eq, walkNames]
  | @last limit name here node enters there stops =>
      rw [Disk.walk_eq, walkNames, if_neg enters.not_idle, if_neg enters.ne_up,
        if_neg enters.admitted, if_neg enters.short]
      simp only [there]
      rcases node with _ | _ | target | _
      · exact if_pos trivial
      · exact if_pos trivial
      · exact if_pos ⟨trivial, stops.link target rfl⟩
      · exact absurd rfl stops.not_directory

theorem arrives_of_walkNames {onward : List String → Place → Except DiskError Spot}
    (further : ∀ {names here}, onward names here = .ok spot →
      ∃ less, limit = less + 1 ∧ Arrives disk aim ⟨less, names, here⟩ spot)
    (found : disk.walkNames aim onward names here = .ok spot) :
    Arrives disk aim ⟨limit, names, here⟩ spot := by
  fun_induction walkNames disk aim onward names here with
  | case1 =>
      cases found
      exact .ends .here
  | case2 _ _ _ idle induction => exact .moves (.idle idle) (induction found)
  | case3 _ _ _ induction => exact .moves .up (induction found)
  -- Refused names, and names behind something that is no directory.
  | case4 | case5 | case7 | case10 => cases found
  | case6 name here not_idle ne_up short place free admitted =>
      cases found
      refine .ends (.last ⟨not_idle, ne_up, admitted, short⟩ free aim.stops_none)
  | case8 name rest here not_idle ne_up admitted short place directory induction =>
      exact .moves (.directory ⟨not_idle, ne_up, admitted, short⟩ directory) (induction found)
  | case9 name here not_idle ne_up short place content file admitted =>
      cases found
      exact .ends (.last ⟨not_idle, ne_up, admitted, short⟩ file (aim.stops_file content))
  | case11 name rest here not_idle ne_up admitted short place target link final =>
      obtain ⟨rfl, entry⟩ := final
      cases found
      exact .ends (.last ⟨not_idle, ne_up, admitted, short⟩ link (Aim.stops_link entry target))
  | case12 name rest here not_idle ne_up admitted short place target link goesOn =>
      obtain ⟨less, rfl, arrives⟩ := further found
      exact .moves (.link ⟨not_idle, ne_up, admitted, short⟩ link goesOn) arrives

/-- A walk finds what its route arrives at. -/
theorem walk_eq_ok_iff :
    disk.walk aim limit names here = .ok spot ↔ Arrives disk aim ⟨limit, names, here⟩ spot := by
  constructor
  · intro found
    induction limit generalizing names here with
    | zero =>
        refine arrives_of_walkNames (fun refused => ?_) (walk_eq disk aim 0 names here ▸ found)
        cases refused
    | succ limit induction =>
        refine arrives_of_walkNames (fun later => ?_) (walk_eq disk aim _ names here ▸ found)
        exact ⟨limit, rfl, induction later⟩
  · intro arrives
    generalize same : (⟨limit, names, here⟩ : Stage) = stage at arrives
    induction arrives generalizing limit names here with
    | ends ends =>
        subst same
        exact ends.walk_eq
    | moves moves _ induction =>
        subst same
        exact moves.walk_eq.trans (induction rfl)

/-! ## Where routes arrive -/

theorem Arrives.of_nil (arrives : Arrives disk aim ⟨limit, [], here⟩ spot) :
    spot = ⟨here, some .directory⟩ := by
  cases arrives with
  | ends ends =>
      cases ends
      rfl
  | moves moves _ => cases moves

/-- What a route arrives at is there, unless it is a directory that the route has come back to. -/
theorem Arrives.node?_eq (arrives : Arrives disk aim stage spot)
    (other : spot.node ≠ some .directory) : disk.node? spot.place = spot.node := by
  induction arrives with
  | ends ends =>
      cases ends with
      | here => exact absurd rfl other
      | last _ there _ => exact there
  | moves _ _ induction => exact induction other

theorem IsTree.dropLast (tree : disk.IsTree) (directory : disk.node? place = some .directory) :
    disk.node? place.dropLast = some .directory := by
  by_cases root : place = []
  · rw [root]
    rfl
  · have split := List.dropLast_concat_getLast root
    rw [← split] at directory
    exact tree _ _ _ directory

theorem Moves.directory_here (tree : disk.IsTree) (moves : Moves disk aim stage next)
    (start : disk.node? stage.here = some .directory) : disk.node? next.here = some .directory := by
  cases moves with
  | idle => exact start
  | up => exact tree.dropLast start
  | directory _ there => exact there
  | link =>
      simp only
      split
      · rfl
      · exact start

/-- A route in a tree arrives at a directory or at an entry of one. -/
theorem Arrives.in_directory (tree : disk.IsTree) (arrives : Arrives disk aim stage spot)
    (start : disk.node? stage.here = some .directory) (other : spot.node ≠ some .directory) :
    ∃ above name, spot.place = above ++ [name] ∧ disk.node? above = some .directory := by
  induction arrives with
  | ends ends =>
      cases ends with
      | here => exact absurd rfl other
      | last _ _ _ => exact ⟨_, _, rfl, start⟩
  | moves moves _ induction => exact induction (moves.directory_here tree start) other

/-- A route to an entry arrives at one with the last of its names. -/
theorem Arrives.getLast?_eq (arrives : Arrives disk .entry stage spot)
    (other : spot.node ≠ some .directory) : spot.place.getLast? = stage.names.getLast? := by
  -- A name that is passed is not the last one, as nothing but a directory is found behind it.
  have passed {limit : Nat} {name : String} {rest : List String} {here : Place} {spot : Spot}
      (arrives : Arrives disk .entry ⟨limit, rest, here⟩ spot)
      (other : spot.node ≠ some .directory) : rest.getLast? = (name :: rest).getLast? := by
    cases rest with
    | nil =>
        rw [arrives.of_nil] at other
        exact absurd rfl other
    | cons next rest => exact (List.getLast?_cons_cons).symm
  induction arrives with
  | ends ends =>
      cases ends with
      | here => exact absurd rfl other
      | last _ _ _ => simp
  | moves moves arrives induction =>
      rw [induction other]
      cases moves with
      | idle => exact passed arrives other
      | up => exact passed arrives other
      | directory => exact passed arrives other
      | @link _ _ _ rest _ _ _ goesOn =>
          cases rest with
          | nil => exact absurd ⟨rfl, rfl⟩ goesOn
          | cons next rest =>
              rw [namesBefore, if_neg (List.cons_ne_nil _ _), List.getLast?_append,
                List.getLast?_eq_some_getLast (List.cons_ne_nil next rest), Option.some_or,
                ← List.getLast?_eq_some_getLast, ← List.getLast?_cons_cons]

/-! ## Routes that lead on -/

/-- Whatever comes after certain names is looked up from the directory that they lead to. -/
def Passes (disk : Disk) (limit : Nat) (names : List String) (here : Place) (left : Nat)
    (there : Place) : Prop :=
  ∀ aim later, later ≠ [] → later ≠ [""] →
    Relation.ReflTransGen (Moves disk aim) ⟨limit, names ++ later, here⟩ ⟨left, later, there⟩

theorem walk_eq_of_moves (moves : Relation.ReflTransGen (Moves disk aim) stage next) :
    disk.walk aim stage.limit stage.names stage.here =
      disk.walk aim next.limit next.names next.here := by
  induction moves with
  | refl => rfl
  | tail _ last induction => exact induction.trans last.walk_eq

theorem Passes.walk_eq {left : Nat} {there : Place}
    (passes : Passes disk limit names here left there) (aim : Aim) (nonempty : later ≠ [])
    (further : later ≠ [""]) :
    disk.walk aim limit (names ++ later) here = disk.walk aim left later there :=
  walk_eq_of_moves (passes aim later nonempty further)

theorem Passes.directory {left : Nat} {there : Place} (tree : disk.IsTree)
    (passes : Passes disk limit names here left there)
    (start : disk.node? here = some .directory) : disk.node? there = some .directory := by
  have kept {stage next : Stage} (moves : Relation.ReflTransGen (Moves disk .entry) stage next)
      (start : disk.node? stage.here = some .directory) :
      disk.node? next.here = some .directory := by
    induction moves with
    | refl => exact start
    | tail _ last induction => exact last.directory_here tree induction
  exact kept (passes .entry ["."] (by decide) (by decide)) start

theorem Enters.with_rest {other : Aim} {further : List String}
    (enters : Enters aim name (rest ++ later)) (nonempty : further ≠ [])
    (admitted : further ≠ [""]) : Enters other name (rest ++ further) where
  not_idle := enters.not_idle
  ne_up := enters.ne_up
  admitted := by
    rintro ⟨-, same⟩
    rcases List.append_eq_singleton_iff.mp same with ⟨-, same⟩ | ⟨-, none⟩
    · exact admitted same
    · exact nonempty none
  short := enters.short

/-- A route that arrives behind certain names has passed them. -/
theorem Arrives.exists_passes (arrives : Arrives disk aim ⟨limit, names ++ later, here⟩ spot)
    (nonempty : later ≠ []) : ∃ left there, Passes disk limit names here left there := by
  generalize same : (⟨limit, names ++ later, here⟩ : Stage) = stage at arrives
  induction arrives generalizing limit names here with
  | ends ends =>
      cases names with
      | nil => exact ⟨limit, here, fun _ _ _ _ => .refl⟩
      | cons name rest =>
          rw [List.cons_append] at same
          subst same
          generalize all : rest ++ later = others at ends
          cases ends
          exact absurd (List.append_eq_nil_iff.mp all).2 nonempty
  | moves moves _ induction =>
      cases names with
      | nil => exact ⟨limit, here, fun _ _ _ _ => .refl⟩
      | cons name rest =>
          rw [List.cons_append] at same
          subst same
          -- Each way to go on is open to whatever comes after the names.
          cases moves with
          | idle idle =>
              obtain ⟨left, there, passes⟩ := induction rfl
              exact ⟨left, there, fun aim later nonempty further =>
                .head (.idle idle) (passes aim later nonempty further)⟩
          | up =>
              obtain ⟨left, there, passes⟩ := induction rfl
              exact ⟨left, there, fun aim later nonempty further =>
                .head .up (passes aim later nonempty further)⟩
          | directory enters directory =>
              obtain ⟨left, there, passes⟩ := induction rfl
              exact ⟨left, there, fun aim later nonempty further =>
                .head (.directory (enters.with_rest nonempty further) directory)
                  (passes aim later nonempty further)⟩
          | @link limit _ target _ _ enters link goesOn =>
              have before {later : List String} (nonempty : later ≠ []) :
                  namesBefore (rest ++ later) target =
                    Location.namesOfEntry target ++ rest ++ later := by
                rw [namesBefore, if_neg (by simp [nonempty]), List.append_assoc]
              obtain ⟨left, there, passes⟩ := induction (by rw [before nonempty])
              refine ⟨left, there, fun aim later nonempty further => ?_⟩
              have link : Moves disk aim ⟨limit + 1, name :: (rest ++ later), here⟩ _ :=
                .link (enters.with_rest nonempty further) link (by simp [nonempty])
              rw [before nonempty] at link
              exact .head link (passes aim later nonempty further)

/-! ## Disks with further nodes -/

/-- A disk with all nodes of another one and perhaps more. -/
structure Adds (before after : Disk) : Prop where
  home : after.home = before.home
  nodes : ∀ place node, before.node? place = some node → after.node? place = some node

theorem Adds.refl (disk : Disk) : disk.Adds disk := ⟨rfl, fun _ _ there => there⟩

theorem Adds.trans {between : Disk} (first : before.Adds between) (second : between.Adds after) :
    before.Adds after :=
  ⟨second.home.trans first.home, fun _ _ there => second.nodes _ _ (first.nodes _ _ there)⟩

theorem adds_put (free : disk.node? place = none) (node : Node) :
    disk.Adds (disk.put place node) where
  home := rfl
  nodes := by
    intro other found there
    rcases disk.node?_put_cases place node other with same | ⟨rfl, -⟩
    · rw [same, there]
    · rw [free] at there
      cases there

/-- A disk with all directories and links of another one, which are what a route goes by. -/
structure Guides (before after : Disk) : Prop where
  directory : ∀ place, before.node? place = some .directory → after.node? place = some .directory
  link : ∀ place target,
    before.node? place = some (.link target) → after.node? place = some (.link target)

theorem Adds.guides (adds : before.Adds after) : before.Guides after :=
  ⟨fun _ => adds.nodes _ _, fun _ _ => adds.nodes _ _⟩

theorem Moves.of_guides (guides : before.Guides after) (moves : Moves before aim stage next) :
    Moves after aim stage next := by
  cases moves with
  | idle idle => exact .idle idle
  | up => exact .up
  | directory enters there => exact .directory enters (guides.directory _ there)
  | link enters there goesOn => exact .link enters (guides.link _ _ there) goesOn

theorem Passes.of_guides {left : Nat} {there : Place} (guides : before.Guides after)
    (passes : Passes before limit names here left there) :
    Passes after limit names here left there :=
  fun aim later nonempty further =>
    (passes aim later nonempty further).lift id fun _ _ moves => moves.of_guides guides

/-- What a route arrives at on a disk it arrives at where there are further nodes. -/
theorem Arrives.of_adds (adds : before.Adds after) {node : Node}
    (arrives : Arrives before aim stage ⟨place, some node⟩) :
    Arrives after aim stage ⟨place, some node⟩ := by
  generalize same : (⟨place, some node⟩ : Spot) = spot at arrives
  induction arrives with
  | ends ends =>
      cases ends with
      | here => exact .ends .here
      | last enters there stops =>
          cases same
          exact .ends (.last enters (adds.nodes _ _ there) stops)
  | moves moves _ induction => exact .moves (moves.of_guides adds.guides) (induction same)

/-! ## Lookups -/

/-- The directory from which the names of a path are followed. -/
def base (disk : Disk) (path : String) : Place :=
  if Location.isAbsolute path then [] else disk.home

theorem find_eq_ok_iff {path : String} :
    disk.find aim path names = .ok spot ↔
      checkPath path = .ok () ∧ Arrives disk aim ⟨linkLimit, names, disk.base path⟩ spot := by
  unfold find
  rw [← walk_eq_ok_iff, base]
  cases checkPath path with
  | error error => simp
  | ok => simp

theorem read_eq_ok_iff {path : String} {content : ByteArray} :
    disk.read path = .ok content ↔ ∃ place, disk.look path = .ok ⟨place, some (.file content)⟩ := by
  unfold read
  constructor
  · intro read
    split at read
    · cases read
      exact ⟨_, ‹_›⟩
    all_goals cases read
  · rintro ⟨place, found⟩
    rw [found]

/-- What can be read can be read where there are further nodes. -/
theorem Adds.read_eq_ok {path : String} {content : ByteArray} (adds : before.Adds after)
    (read : before.read path = .ok content) : after.read path = .ok content := by
  obtain ⟨place, found⟩ := read_eq_ok_iff.mp read
  obtain ⟨passes, arrives⟩ := find_eq_ok_iff.mp found
  rw [base, ← adds.home] at arrives
  exact read_eq_ok_iff.mpr ⟨place, find_eq_ok_iff.mpr ⟨passes, arrives.of_adds adds⟩⟩

/-! ## Reading what has been written -/

theorem Arrives.target_of_file (arrives : Arrives disk .file stage spot) :
    Arrives disk .target stage spot := by
  have admitted {name : String} {rest : List String} (enters : Enters .file name rest) :
      Enters .target name rest :=
    ⟨enters.not_idle, enters.ne_up, nofun, enters.short⟩
  induction arrives with
  | ends ends =>
      cases ends with
      | here => exact .ends .here
      | last enters there stops =>
          refine .ends (.last (admitted enters) there ⟨stops.not_directory, fun target link => ?_⟩)
          cases stops.link target link
  | moves moves _ induction =>
      refine .moves ?_ induction
      cases moves with
      | idle idle => exact .idle idle
      | up => exact .up
      | directory enters there => exact .directory (admitted enters) there
      | link enters there _ => exact .link (admitted enters) there nofun

theorem Arrives.not_link (arrives : Arrives disk aim stage spot) (further : aim ≠ .entry)
    (target : String) : spot.node ≠ some (.link target) := by
  induction arrives with
  | ends ends =>
      cases ends with
      | here => nofun
      | last _ _ stops => exact fun link => further (stops.link target link)
  | moves _ _ induction => exact induction

theorem guides_put (apart : disk.node? place ≠ some .directory)
    (notLink : ∀ target, disk.node? place ≠ some (.link target)) (node : Node) :
    disk.Guides (disk.put place node) where
  directory := by
    intro other there
    rcases disk.node?_put_cases place node other with same | ⟨rfl, -⟩
    · rw [same, there]
    · exact absurd there apart
  link := by
    intro other target there
    rcases disk.node?_put_cases place node other with same | ⟨rfl, -⟩
    · rw [same, there]
    · exact absurd there (notLink target)

/-- A route arrives where it did once a file has been put there. -/
theorem Arrives.put_file (arrives : Arrives disk aim stage ⟨place, node⟩)
    (further : aim ≠ .entry) (other : node ≠ some .directory) (content : ByteArray) :
    Arrives (disk.put place (.file content)) aim stage ⟨place, some (.file content)⟩ := by
  have there : disk.node? place = node := arrives.node?_eq other
  have guides : disk.Guides (disk.put place (.file content)) :=
    guides_put (there ▸ other) (there ▸ arrives.not_link further) _
  have inside : place ≠ [] := by
    rintro rfl
    exact other there.symm
  have put : (disk.put place (.file content)).node? place = some (.file content) := by
    rw [node?_put inside, if_pos rfl]
  generalize same : (⟨place, node⟩ : Spot) = spot at arrives
  induction arrives with
  | ends ends =>
      cases ends with
      | here =>
          cases same
          exact absurd rfl other
      | last enters _ _ =>
          cases same
          exact .ends (.last enters put ⟨nofun, nofun⟩)
  | moves moves _ induction => exact .moves (moves.of_guides guides) (induction same)

/-- A route to an entry that is not there arrives at it once a directory has been made. -/
theorem Arrives.put_directory (arrives : Arrives disk aim stage ⟨place, none⟩) :
    Arrives (disk.put place .directory) aim stage ⟨place, some .directory⟩ := by
  have free : disk.node? place = none := arrives.node?_eq nofun
  have guides : disk.Guides (disk.put place .directory) := (adds_put free _).guides
  have inside : place ≠ [] := by
    rintro rfl
    cases free
  have put : (disk.put place .directory).node? place = some .directory := by
    rw [node?_put inside, if_pos rfl]
  generalize same : (⟨place, none⟩ : Spot) = spot at arrives
  induction arrives with
  | ends ends =>
      cases ends with
      | here => cases same
      | last enters _ _ =>
          cases same
          exact .moves (.directory enters put) (.ends .here)
  | moves moves _ induction => exact .moves (moves.of_guides guides) (induction same)

/-- Writing puts a file into the place that the path leads to. -/
theorem write_eq_ok {path : String} {content : ByteArray}
    (done : write path content disk = .ok () after) :
    ∃ place node, disk.lookForFile path = .ok ⟨place, node⟩ ∧ node ≠ some .directory ∧
      after = disk.put place (.file content) := by
  simp only [write] at done
  split at done
  · cases done
  · cases done
  · rename_i place node other found
    cases done
    exact ⟨place, node, found, fun directory => other directory, rfl⟩

/-- A path that has been written to has the file at its end. -/
theorem lookForFile_of_write {path : String} {content : ByteArray}
    (done : write path content disk = .ok () after) :
    ∃ place, after.lookForFile path = .ok ⟨place, some (.file content)⟩ := by
  obtain ⟨place, node, found, other, rfl⟩ := write_eq_ok done
  obtain ⟨passes, arrives⟩ := find_eq_ok_iff.mp found
  exact ⟨place, find_eq_ok_iff.mpr ⟨passes, arrives.put_file nofun other content⟩⟩

theorem read_of_lookForFile {path : String} {content : ByteArray}
    (found : disk.lookForFile path = .ok ⟨place, some (.file content)⟩) :
    disk.read path = .ok content := by
  obtain ⟨passes, arrives⟩ := find_eq_ok_iff.mp found
  exact read_eq_ok_iff.mpr ⟨place, find_eq_ok_iff.mpr ⟨passes, arrives.target_of_file⟩⟩

/-- What has been written is what is read. -/
theorem read_of_write {path : String} {content : ByteArray}
    (done : write path content disk = .ok () after) : after.read path = .ok content := by
  obtain ⟨place, found⟩ := lookForFile_of_write done
  exact read_of_lookForFile found

/-- Writing what is there changes nothing. -/
theorem write_of_lookForFile {path : String} {content : ByteArray}
    (found : disk.lookForFile path = .ok ⟨place, some (.file content)⟩) :
    write path content disk = .ok () disk := by
  have there : disk.node? place = some (.file content) :=
    (find_eq_ok_iff.mp found).2.node?_eq nofun
  have inside : place ≠ [] := by
    rintro rfl
    cases there
  simp only [write, found, put_of_node? inside there]

/-- Writing the same again changes nothing. -/
theorem write_again {path : String} {content : ByteArray}
    (done : write path content disk = .ok () after) :
    write path content after = .ok () after := by
  obtain ⟨place, found⟩ := lookForFile_of_write done
  exact write_of_lookForFile found

/-! ## Writing elsewhere -/

/-- A route arrives where it did once a node has been put elsewhere. -/
theorem Arrives.put_elsewhere {other : Place} {new : Node} (arrives : Arrives disk aim stage spot)
    (guides : disk.Guides (disk.put other new)) (apart : spot.place ≠ other) :
    Arrives (disk.put other new) aim stage spot := by
  induction arrives with
  | ends ends =>
      cases ends with
      | here => exact .ends .here
      | last enters there stops =>
          rcases disk.node?_put_cases other new _ with same | ⟨same, -⟩
          · exact .ends (.last enters (same.trans there) stops)
          · exact absurd same apart
  | moves moves _ induction => exact .moves (moves.of_guides guides) (induction apart)

/-- A route that arrives somewhere once a file has been put into a place arrived there before. -/
theorem Arrives.of_put_file {content : ByteArray}
    (arrives : Arrives (disk.put place (.file content)) aim stage spot)
    (other : disk.node? place ≠ some .directory)
    (unlinked : ∀ target, disk.node? place ≠ some (.link target)) :
    ∃ node, Arrives disk aim stage ⟨spot.place, node⟩ := by
  have guides : (disk.put place (.file content)).Guides disk := by
    refine ⟨fun here there => ?_, fun here target there => ?_⟩
    · rcases disk.node?_put_cases place (.file content) here with same | ⟨-, new⟩
      · exact same ▸ there
      · cases new.symm.trans there
    · rcases disk.node?_put_cases place (.file content) here with same | ⟨-, new⟩
      · exact same ▸ there
      · cases new.symm.trans there
  induction arrives with
  | ends ends =>
      cases ends with
      | here => exact ⟨_, .ends .here⟩
      | last enters there stops =>
          rcases disk.node?_put_cases place (.file content) _ with same | ⟨same, -⟩
          · exact ⟨_, .ends (.last enters (same.symm.trans there) stops)⟩
          · refine ⟨_, .ends (.last enters rfl ?_)⟩
            rw [same]
            exact ⟨other, fun target link => absurd link (unlinked target)⟩
  | moves moves _ induction =>
      obtain ⟨node, arrives⟩ := induction
      exact ⟨node, .moves (moves.of_guides guides) arrives⟩

/-- Where a file can be written, nothing leads on. -/
theorem leads_nowhere_of_lookForFile {path : String}
    (found : disk.lookForFile path = .ok ⟨place, node⟩) (other : node ≠ some .directory) :
    disk.node? place ≠ some .directory ∧ ∀ target, disk.node? place ≠ some (.link target) := by
  have arrives := (find_eq_ok_iff.mp found).2
  rw [arrives.node?_eq other]
  exact ⟨other, arrives.not_link nofun⟩

/-- Writing leads no path to another place. -/
theorem lookForFile_before_write {path written : String} {content : ByteArray}
    (done : write written content disk = .ok () after)
    (found : after.lookForFile path = .ok ⟨place, node⟩) :
    ∃ node, disk.lookForFile path = .ok ⟨place, node⟩ := by
  obtain ⟨put, _, look, other, rfl⟩ := write_eq_ok done
  obtain ⟨directory, unlinked⟩ := leads_nowhere_of_lookForFile look other
  obtain ⟨passes, arrives⟩ := find_eq_ok_iff.mp found
  obtain ⟨node, before⟩ := arrives.of_put_file directory unlinked
  exact ⟨node, find_eq_ok_iff.mpr ⟨passes, before⟩⟩

/-- Two paths do not lead to one place. -/
def LeadApart (disk : Disk) (path other : String) : Prop :=
  ∀ place node found, disk.lookForFile path = .ok ⟨place, node⟩ →
    disk.lookForFile other ≠ .ok ⟨place, found⟩

theorem leadApart_iff {path other : String} : disk.LeadApart path other ↔
    ∀ one ∈ (disk.lookForFile path).toOption, ∀ two ∈ (disk.lookForFile other).toOption,
      one.place ≠ two.place := by
  rw [LeadApart]
  rcases disk.lookForFile path with _ | ⟨one, node⟩
  · simp [Except.toOption]
  · rcases disk.lookForFile other with _ | ⟨two, found⟩
    · simp [Except.toOption]
    · simp only [Except.ok.injEq, Spot.mk.injEq, ne_eq, not_and, Except.toOption, Option.mem_def,
        Option.some.injEq, forall_eq']
      exact ⟨fun apart same => apart one node found ⟨rfl, rfl⟩ same.symm rfl,
        fun apart place _ _ first second _ => apart (first.1.trans second.symm)⟩

instance (disk : Disk) (path other : String) : Decidable (disk.LeadApart path other) :=
  decidable_of_iff' _ leadApart_iff

theorem LeadApart.of_write {path other written : String} {content : ByteArray}
    (apart : disk.LeadApart path other) (done : write written content disk = .ok () after) :
    after.LeadApart path other := by
  intro place node found one two
  obtain ⟨node, one⟩ := lookForFile_before_write done one
  obtain ⟨found, two⟩ := lookForFile_before_write done two
  exact apart place node found one two

/-- Writing to one of two paths that lead apart leaves what the other leads to. -/
theorem LeadApart.lookForFile_of_write {path other : String} {content : ByteArray}
    (apart : disk.LeadApart path other) (found : disk.lookForFile path = .ok spot)
    (done : write other content disk = .ok () after) : after.lookForFile path = .ok spot := by
  obtain ⟨put, _, look, further, rfl⟩ := write_eq_ok done
  obtain ⟨directory, unlinked⟩ := leads_nowhere_of_lookForFile look further
  obtain ⟨passes, arrives⟩ := find_eq_ok_iff.mp found
  refine find_eq_ok_iff.mpr ⟨passes, arrives.put_elsewhere (guides_put directory unlinked _) ?_⟩
  rintro rfl
  exact apart _ _ _ found look

end Disk
end TagStore
