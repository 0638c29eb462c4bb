import TagStore.Proofs.Disk.Home

/-!
# Sound disks

On a sound disk the store has nothing but files, and every link in the working directory points
into the store from outside of it.  No path leads on through such a link, so whatever a lookup finds
stands where the names of its path say.
-/

namespace TagStore
namespace Disk

open Location (IsName fromRoot)

/-- The name of the store in the output directory. -/
def storeName : String := ".hash"

/-- What a link to a stored file points at. -/
def storedTarget (home : Place) (hash : String) : String :=
  fromRoot (home ++ [".", storeName, hash])

/-- What may stand at a place in the working directory. -/
def Fits (home : Place) (names : List String) : Node → Prop
  | .directory => names.head? ≠ some storeName ∨ names = [storeName]
  | .file _ => names.head? ≠ some storeName ∨ ∃ hash, names = [storeName, hash]
  | .link target => names.head? ≠ some storeName ∧
      ∃ hash, IsName hash ∧ target = storedTarget home hash

/-- A rooted disk with everything in the working directory where it may stand. -/
structure IsSound (disk : Disk) : Prop extends disk.IsRooted where
  fits : ∀ names node, disk.node? (disk.home ++ names) = some node → Fits disk.home names node

variable {disk : Disk} {path : String} {names : List String}

theorem isName_storeName : IsName storeName := by decide

/-- Nothing is in a store that is not there. -/
theorem IsRooted.store_free (rooted : disk.IsRooted)
    (unstored : disk.node? (disk.home ++ [storeName]) = none) (names : List String) :
    disk.node? (disk.home ++ storeName :: names) = none := by
  cases names with
  | nil => exact unstored
  | cons name rest =>
      have other : disk.node? (disk.home ++ [storeName]) ≠ some .directory := by simp [unstored]
      have free := rooted.tree.free (List.cons_ne_nil name rest) other
      rwa [List.append_assoc] at free

/-! ## Changes that keep a disk sound -/

theorem place_ne_nil (nonempty : names ≠ []) : disk.home ++ names ≠ [] := by simp [nonempty]

theorem IsSound.put (sound : disk.IsSound) (nonempty : names ≠ [])
    (above : disk.node? (disk.home ++ names.dropLast) = some .directory)
    (other : disk.node? (disk.home ++ names) ≠ some .directory) {node : Node}
    (fits : Fits disk.home names node) : (disk.put (disk.home ++ names) node).IsSound where
  toIsRooted := by
    rw [← List.dropLast_concat_getLast nonempty, ← List.append_assoc] at other ⊢
    exact sound.toIsRooted.put other above node
  fits := by
    intro others found there
    rw [node?_put (place_ne_nil nonempty), home_put] at there
    split at there
    · rename_i same
      cases there
      rw [List.append_cancel_left same]
      exact fits
    · exact sound.fits _ _ there

theorem IsSound.drop (sound : disk.IsSound) (nonempty : names ≠ [])
    (other : disk.node? (disk.home ++ names) ≠ some .directory) :
    (disk.drop (disk.home ++ names)).IsSound where
  toIsRooted := sound.toIsRooted.drop other
  fits := by
    intro others found there
    rw [node?_drop (place_ne_nil nonempty), home_drop] at there
    split at there
    · cases there
    · exact sound.fits _ _ there

/-! ## Links lead nowhere -/

theorem not_link_store (sound : disk.IsSound) {target : String} :
    disk.node? (disk.home ++ [storeName]) ≠ some (.link target) := by
  intro link
  have fits := sound.fits _ _ link
  simp [Fits] at fits

theorem not_link_in_store (sound : disk.IsSound) (hash target : String) :
    disk.node? (disk.home ++ [storeName, hash]) ≠ some (.link target) := by
  intro link
  have fits := sound.fits _ _ link
  simp [Fits] at fits

theorem not_directory_in_store (sound : disk.IsSound) (hash : String) :
    disk.node? (disk.home ++ [storeName, hash]) ≠ some .directory := by
  intro directory
  have fits := sound.fits _ _ directory
  simp [Fits] at fits

/-- No walk leads on from a stored file. -/
theorem walkNames_in_store (sound : disk.IsSound) {aim : Aim}
    {onward : List String → Place → Except DiskError Spot} {hash : String} (isName : IsName hash)
    {later : List String} (nonempty : later ≠ []) (further : later ≠ [""]) :
    ∃ error,
      disk.walkNames aim onward (hash :: later) (disk.home ++ [storeName]) = .error error := by
  by_cases long : Location.nameLimit < hash.utf8ByteSize
  · exact ⟨_, walkNames_tooLong isName long further _⟩
  have same : disk.home ++ [storeName] ++ [hash] = disk.home ++ [storeName, hash] :=
    List.append_assoc _ _ _
  cases there : disk.node? (disk.home ++ [storeName] ++ [hash]) with
  | none =>
      rw [walkNames_free isName long further there]
      exact ⟨_, if_neg nonempty⟩
  | some node =>
      cases node with
      | directory => exact absurd (same ▸ there) (not_directory_in_store sound hash)
      | file content =>
          rw [walkNames_file isName long further there]
          exact ⟨_, if_neg nonempty⟩
      | link target => exact absurd (same ▸ there) (not_link_in_store sound hash target)

theorem walkNames_stored (sound : disk.IsSound) {aim : Aim}
    {onward : List String → Place → Except DiskError Spot} {hash : String} (isName : IsName hash)
    {later : List String} (nonempty : later ≠ []) (further : later ≠ [""]) :
    ∃ error, disk.walkNames aim onward (storeName :: hash :: later) disk.home = .error error := by
  have second : hash :: later ≠ [""] := by simp [nonempty]
  have short : ¬Location.nameLimit < storeName.utf8ByteSize := by decide
  cases there : disk.node? (disk.home ++ [storeName]) with
  | none =>
      rw [walkNames_free isName_storeName short second there]
      exact ⟨_, if_neg (List.cons_ne_nil _ _)⟩
  | some node =>
      cases node with
      | directory =>
          rw [walkNames_directory isName_storeName short second there]
          exact walkNames_in_store sound isName nonempty further
      | file content =>
          rw [walkNames_file isName_storeName short second there]
          exact ⟨_, if_neg (List.cons_ne_nil _ _)⟩
      | link target => exact absurd there (not_link_store sound)

theorem IsSound.blocks (sound : disk.IsSound) (areNames : ∀ name ∈ names, IsName name) (aim : Aim)
    (limit : Nat) : disk.Blocks (disk.walk aim limit) disk.home names := by
  intro before later target split nonempty link
  obtain ⟨-, hash, isName, rfl⟩ := sound.fits _ _ link
  have stored : ∀ name ∈ [storeName, hash], IsName name := by
    simpa using ⟨isName_storeName, isName⟩
  have further : later ≠ [""] :=
    ne_singleton_empty fun name member => areNames name (split ▸ List.mem_append_right _ member)
  have onward : Location.namesBefore later (storedTarget disk.home hash) =
      disk.home ++ "." :: storeName :: hash :: later := by
    rw [Location.namesBefore, if_neg nonempty, storedTarget,
      namesOfEntry_absolute sound.toIsRooted stored, List.append_assoc]
    rfl
  rw [storedTarget, isAbsolute_fromRoot, ← storedTarget, onward, if_pos rfl]
  have blocked {onward : List String → Place → Except DiskError Spot} :
      ∃ error, disk.walkNames aim onward (disk.home ++ "." :: storeName :: hash :: later) [] =
        .error error := by
    have through : disk.walkNames aim onward (disk.home ++ "." :: storeName :: hash :: later) [] =
        _ ∨ _ := sound.walkNames_home (by simp)
    rcases through with through | long
    · rw [through, walkNames_idle (by decide)]
      exact walkNames_stored sound isName nonempty further
    · exact ⟨_, long⟩
  cases limit with
  | zero => exact blocked
  | succ limit => exact blocked

/-! ## Lookups -/

/-- What a lookup finds stands where the names of its path say. -/
theorem IsSound.spot_of_find (sound : disk.IsSound) (leads : disk.Leads path names)
    (areNames : ∀ name ∈ names, IsName name) {aim : Aim} {spot : Spot}
    (final : aim = .entry ∨ ∀ target, disk.node? (disk.home ++ names) ≠ some (.link target))
    (found : disk.find aim path (Location.namesOfEntry path) = .ok spot) :
    spot = ⟨disk.home ++ names, disk.node? (disk.home ++ names)⟩ ∧
      disk.node? (disk.home ++ names.dropLast) = some .directory := by
  rcases leads.find sound.toIsRooted areNames aim with walks | ⟨error, -, refused⟩
  · rw [walks] at found
    exact spot_of_walkNames areNames (sound.blocks areNames aim 39) sound.home_directory final found
  · rw [refused] at found
    cases found

/-- Nothing stands where a lookup fails to find something. -/
theorem IsSound.free_of_notFound (sound : disk.IsSound) (leads : disk.Leads path names)
    (areNames : ∀ name ∈ names, IsName name) (nonempty : names ≠ [])
    (missing : disk.lookAtEntry path = .error .notFound) :
    disk.node? (disk.home ++ names) = none := by
  rw [Option.eq_none_iff_forall_ne_some]
  intro node there
  rcases leads.find sound.toIsRooted areNames .entry with walks | ⟨error, other, refused⟩
  · rw [lookAtEntry, walks] at missing
    rcases walkNames_of_node sound.tree areNames nonempty (.inl rfl) there with found | long
    · cases missing.symm.trans found
    · cases missing.symm.trans long
  · rw [lookAtEntry, refused] at missing
    exact other (Except.error.inj missing)

theorem Leads.names_eq (leads : disk.Leads path names) (nonempty : names ≠ [])
    (areNames : ∀ name ∈ names, IsName name) :
    Location.names path = Location.namesOfEntry path :=
  Location.names_eq_namesOfEntry (leads.endsInSlash nonempty areNames)

end Disk
end TagStore
