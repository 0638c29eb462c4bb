import TagStore.Proofs.Disk.Route
import TagStore.Proofs.Disk.Write

/-!
# Paths in a directory that is there

If a path leads to a directory, a longer path is followed from there, on this disk and on every disk
with further nodes.  What is made in that directory is made at a free place.
-/

namespace TagStore

open Location (IsName)

namespace Disk

variable {disk between after : Disk} {aim : Aim} {limit : Nat} {output path : String}
  {there place : Place} {names later : List String} {name : String} {spot : Spot}
  {stage next : Stage}

/-! ## Directories that are there -/

/-- What comes after a path is looked up from a directory. -/
structure Reaches (disk : Disk) (output : String) (limit : Nat) (there : Place) : Prop where
  written : output ≠ ""
  passes : disk.Passes linkLimit (Location.namesOfEntry output) (disk.base output) limit there

theorem Reaches.of_adds (reaches : disk.Reaches output limit there) (adds : disk.Adds after) :
    after.Reaches output limit there where
  written := reaches.written
  passes := by
    rw [base, adds.home]
    exact reaches.passes.of_guides adds.guides

theorem reaches_dot (disk : Disk) : disk.Reaches "." linkLimit disk.home where
  written := by decide
  passes := fun _ _ _ _ => .single (.idle (by decide))

theorem reaches_name (isName : IsName name) (short : ¬Location.nameLimit < name.utf8ByteSize)
    (directory : disk.node? (disk.home ++ [name]) = some .directory) :
    disk.Reaches name linkLimit (disk.home ++ [name]) where
  written := isName.ne_empty
  passes := by
    intro aim later nonempty further
    rw [Location.namesOfEntry_part isName.ne_empty isName.slash_free, base,
      if_neg (by simp [isName.relative])]
    refine .single (.directory ⟨?_, isName.ne_up, fun both => further both.2, short⟩ directory)
    simp [isName.not_isIdle]

theorem IsRooted.base_directory (rooted : disk.IsRooted) (path : String) :
    disk.node? (disk.base path) = some .directory := by
  rw [base]
  split
  · rfl
  · exact rooted.home_directory

theorem Reaches.directory (reaches : disk.Reaches output limit there) (rooted : disk.IsRooted) :
    disk.node? there = some .directory :=
  reaches.passes.directory rooted.tree (rooted.base_directory output)

/-- A path in an output directory is refused or followed from there. -/
theorem Reaches.find_eq (reaches : disk.Reaches output limit there)
    (absolute : Location.isAbsolute path = Location.isAbsolute output) (nonempty : later ≠ [])
    (further : later ≠ [""]) :
    disk.find aim path (Location.namesOfEntry output ++ later) =
      match checkPath path with
      | .error error => .error error
      | .ok _ => disk.walk aim limit later there := by
  rw [find, absolute, ← base]
  cases checkPath path with
  | error error => rfl
  | ok => exact reaches.passes.walk_eq aim nonempty further

/-- The last name of a path to an entry is looked up in its directory. -/
theorem walk_entry (isName : IsName name) (short : ¬Location.nameLimit < name.utf8ByteSize)
    (limit : Nat) (here : Place) :
    disk.walk .entry limit [name] here = .ok ⟨here ++ [name], disk.node? (here ++ [name])⟩ := by
  have further : [] ≠ [""] := (List.cons_ne_nil _ _).symm
  rw [walk_eq]
  rcases at_ : disk.node? (here ++ [name]) with _ | content | target | _
  · rw [walkNames_free isName short further at_, if_pos rfl]
  · rw [walkNames_file isName short further at_, if_pos rfl]
  · rw [walkNames_link isName short further at_, if_pos ⟨rfl, rfl⟩]
  · exact walkNames_directory isName short further at_

/-! ## Ways from the root -/

/-- The names that lead from the root to a directory. -/
def way (disk : Disk) (output : String) : List String :=
  disk.base output ++ Location.namesOfEntry output

theorem isAbsolute_absolute (disk : Disk) (output : String) :
    Location.isAbsolute (disk.absolute output) := by
  rw [absolute]
  split
  · assumption
  · rename_i relative
    rw [Location.isAbsolute_join (by simpa using relative) Leads.home.ne_empty, homePath_eq,
      isAbsolute_fromRoot]

theorem IsRooted.namesOfEntry_absolute (rooted : disk.IsRooted) (output : String) :
    Location.namesOfEntry (disk.absolute output) = disk.way output := by
  rw [absolute, way, base]
  split
  · rfl
  · rename_i relative
    rw [Location.namesOfEntry_join (by simpa using relative) Leads.home.ne_empty,
      namesOfEntry_homePath rooted]

theorem Enters.of_entry {other : List String} (enters : Enters .entry name names) :
    Enters .entry name other :=
  ⟨enters.not_idle, enters.ne_up, nofun, enters.short⟩

/-- A walk to an entry goes on in the same way with further names behind it. -/
theorem Moves.append (moves : Moves disk .entry stage next) (later : List String) :
    Moves disk .entry ⟨stage.limit, stage.names ++ later, stage.here⟩
      ⟨next.limit, next.names ++ later, next.here⟩ := by
  cases moves with
  | idle idle => exact .idle idle
  | up => exact .up
  | directory enters there => exact .directory enters.of_entry there
  | @link _ _ target rest _ enters there goesOn =>
      have more : rest ≠ [] := fun none => goesOn ⟨none, rfl⟩
      have longer : rest ++ later ≠ [] := List.append_ne_nil_of_left_ne_nil more later
      have names : Location.namesBefore (rest ++ later) target =
          Location.namesBefore rest target ++ later := by
        rw [Location.namesBefore, Location.namesBefore, if_neg more, if_neg longer,
          List.append_assoc]
      rw [← names]
      exact .link enters.of_entry there fun final => longer final.1

/-- Nothing is found behind a free place. -/
theorem Arrives.walk_behind (arrives : Arrives disk .entry stage ⟨place, none⟩)
    (nonempty : later ≠ []) :
    disk.walk .entry stage.limit (stage.names ++ later) stage.here = .error .notFound := by
  generalize same : (⟨place, none⟩ : Spot) = spot at arrives
  induction arrives with
  | ends ends =>
      cases ends with
      | here => cases same
      | @last _ _ _ _ enters there _ =>
          cases same
          have further : Enters .entry _ later := enters.of_entry
          rw [walk_eq, List.singleton_append, walkNames, if_neg further.not_idle,
            if_neg further.ne_up, if_neg further.admitted, if_neg further.short]
          simp only [there, if_neg nonempty]
  | moves moves _ induction => exact (moves.append later).walk_eq.trans (induction same)

theorem IsRooted.base_names (rooted : disk.IsRooted) (path : String) :
    ∀ name ∈ disk.base path, IsName name := by
  rw [base]
  split
  · exact List.forall_mem_nil _
  · exact rooted.home_names

/-- Above the place where a path starts there are directories. -/
theorem IsRooted.above_base (rooted : disk.IsRooted) (above : names <+: disk.base path) :
    disk.node? names = some .directory ∧ ∀ name ∈ names, IsName name := by
  obtain ⟨later, same⟩ := above
  refine ⟨?_, fun name member =>
    rooted.base_names path name (same ▸ List.mem_append_left _ member)⟩
  have start := rooted.base_directory path
  by_cases none : later = []
  · rwa [← same, none, List.append_nil] at start
  · exact rooted.tree.above none (same ▸ start)

/-- A walk from the root that passes through a directory comes out of it. -/
theorem IsRooted.walk_through (rooted : disk.IsRooted) (areNames : ∀ name ∈ names, IsName name)
    (there : disk.node? names = some .directory) (further : later ≠ [""])
    (found : disk.walk aim limit (names ++ later) [] = .ok spot) :
    disk.walk aim limit later names = .ok spot := by
  rw [walk_eq] at found ⊢
  rcases @walkNames_through disk aim _ [] names rooted.tree areNames there later further with
    through | long
  · exact through.symm.trans found
  · cases long.symm.trans found

/-- Along the way to an output directory that is there, nothing is free. -/
theorem Reaches.not_free (reaches : disk.Reaches output limit there) (rooted : disk.IsRooted)
    (absolute : Location.isAbsolute path) (along : Location.namesOfEntry path <+: disk.way output) :
    disk.lookAtEntry path ≠ .ok ⟨place, none⟩ := by
  intro found
  have walked := walk_eq_ok_iff.mpr (find_eq_ok_iff.mp found).2
  rw [base, if_pos absolute] at walked
  rcases List.prefix_or_prefix_of_prefix along (List.prefix_append _ _) with
    above | ⟨inner, names⟩
  · obtain ⟨directory, areNames⟩ := rooted.above_base above
    rw [← List.append_nil (Location.namesOfEntry path)] at walked
    have ended := rooted.walk_through areNames directory (List.cons_ne_nil _ _).symm walked
    cases (walk_eq_ok_iff.mp ended).of_nil
  · have further : inner ≠ [""] := by
      rintro rfl
      have listed : "" ∈ Location.namesOfEntry path := names ▸ List.mem_append_right _ (by simp)
      exact absurd (List.mem_filter.mp listed).2 (by decide)
    rw [← names] at walked along
    have walked := rooted.walk_through (rooted.base_names output)
      (rooted.base_directory output) further walked
    obtain ⟨more, whole⟩ := (List.prefix_append_right_inj _).mp along
    have behind := (walk_eq_ok_iff.mp walked).walk_behind (List.append_ne_nil_of_right_ne_nil more
      (List.cons_ne_nil "." []))
    have passed := reaches.passes.walk_eq .entry (List.cons_ne_nil "." []) (by decide)
    rw [← whole, List.append_assoc, behind, walk_eq, walkNames_idle (by decide), walkNames]
      at passed
    cases passed

/-! ## New nodes -/

/-- Writing to a path that has no file adds one. -/
theorem write_adds (rooted : disk.IsRooted) {content : ByteArray}
    (new : ∀ place found, disk.lookForFile path ≠ .ok ⟨place, some (.file found)⟩)
    (done : write path content disk = .ok () after) : disk.Adds after ∧ after.IsRooted := by
  obtain ⟨place, node, found, other, rfl⟩ := write_eq_ok done
  have arrives := (find_eq_ok_iff.mp found).2
  rcases node with _ | held | target | _
  · have free : disk.node? place = none := arrives.node?_eq nofun
    obtain ⟨above, name, rfl, directory⟩ :=
      arrives.in_directory rooted.tree (rooted.base_directory path) nofun
    exact ⟨adds_put free _, rooted.put (by simp [free]) directory _⟩
  · exact absurd found (new place held)
  · exact absurd rfl (arrives.not_link nofun target)
  · exact absurd rfl other

/-- Writing that fails changes nothing. -/
theorem write_error {content : ByteArray} {error : DiskError}
    (failed : write path content disk = .error error after) : after = disk := by
  simp only [write] at failed
  split at failed
  · cases failed
    rfl
  · cases failed
    rfl
  · cases failed

/-! ## Keeping -/

/-- A path to the store in an output directory that is there is refused or leads there. -/
theorem Reaches.lookAtEntry_store (reaches : disk.Reaches output limit there)
    (names : Location.namesOfEntry path = Location.namesOfEntry output ++ [storeName])
    (absolute : Location.isAbsolute path = Location.isAbsolute output) (written : path ≠ "") :
    disk.lookAtEntry path = .ok ⟨there ++ [storeName], disk.node? (there ++ [storeName])⟩ ∨
      ∃ error, error ≠ .notFound ∧ disk.lookAtEntry path = .error error := by
  have short : ¬Location.nameLimit < storeName.utf8ByteSize := by decide
  rw [lookAtEntry, names, reaches.find_eq absolute (List.cons_ne_nil _ _) (by decide),
    walk_entry isName_storeName short]
  rcases checkPath_eq written with passes | ⟨error, other, refused⟩
  · exact .inl (by rw [passes])
  · exact .inr ⟨error, other, by rw [refused]⟩

theorem left_unlessDirectory (path : String) (error : DiskError) (disk : Disk) :
    (unlessDirectory path error).left disk = disk := by
  simp only [DiskStep.left, unlessDirectory]
  cases disk.isDirectory path with
  | true => rfl
  | false => rfl

/-- Making the store in an output directory that is there puts a directory at a free place or does
nothing, whether it succeeds or fails. -/
theorem Reaches.left_makeDirectories (reaches : disk.Reaches output limit there)
    (names : Location.namesOfEntry path = Location.namesOfEntry output ++ [storeName])
    (absolute : Location.isAbsolute path = Location.isAbsolute output) (written : path ≠ "") :
    (makeDirectories path).left disk = disk ∨ disk.node? (there ++ [storeName]) = none ∧
      (makeDirectories path).left disk = disk.put (there ++ [storeName]) .directory := by
  obtain ⟨fuel, length⟩ : ∃ fuel, path.length = fuel + 1 :=
    Nat.exists_eq_succ_of_ne_zero (by simpa using written)
  rw [makeDirectories, length]
  -- Unless the store can be made at once, nothing is made.
  have failed {error : DiskError} (other : error ≠ .notFound)
      (failed : makeDirectory path disk = .error error disk) :
      (makeDirectoriesWithin (fuel + 1) path).left disk = disk := by
    have unmade : makeDirectoriesWithin (fuel + 1) path disk = unlessDirectory path error disk := by
      simp only [makeDirectoriesWithin, if_neg written, failed]
    rw [DiskStep.left_congr unmade, left_unlessDirectory]
  rcases reaches.lookAtEntry_store names absolute written with found | ⟨error, other, refused⟩
  · cases at_ : disk.node? (there ++ [storeName]) with
    | none =>
        have made : makeDirectoriesWithin (fuel + 1) path disk =
            .ok () (disk.put (there ++ [storeName]) .directory) := by
          simp only [makeDirectoriesWithin, if_neg written, makeDirectory, found, at_]
        exact .inr ⟨rfl, DiskStep.left_ok made⟩
    | some node =>
        have there : makeDirectory path disk = .error .exists disk := by
          simp only [makeDirectory, found, at_]
        exact .inl (failed (by decide) there)
  · have refused : makeDirectory path disk = .error error disk := by
      simp only [makeDirectory, refused]
    exact .inl (failed other refused)

end Disk

end TagStore
