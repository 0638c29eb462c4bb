import TagStore.Proofs.Disk.Reach
import TagStore.Proofs.Lockfile.Store

/-!
# Keeping contents adds to a disk

In an output directory that is there, keeping a content makes the store and the stored file where
nothing was before.  It never replaces a file, so whatever could be read can be read as before.
Links may lead anywhere meanwhile.
-/

namespace TagStore

open Location (IsName)

namespace Lockfile

open Disk (storeName)

variable {disk between after : Disk} {limit : Nat} {output hash : String} {there : Place}

theorem keep_there {content : ByteArray}
    (there : Disk.isThere (disk.look (Location.join output (storedAt hash)))) :
    keep output hash content disk = .ok () disk := if_pos there

theorem keep_absent {content : ByteArray}
    (absent : ¬Disk.isThere (disk.look (Location.join output (storedAt hash)))) :
    keep output hash content disk =
      Disk.place (Location.join output (storedAt hash)) content disk := if_neg absent

theorem isAbsolute_storedAt (hash : String) : Location.isAbsolute (storedAt hash) = false := by
  simp [Location.isAbsolute, storedAt]

theorem namesOfEntry_join_storedAt (written : output ≠ "") (isName : IsName hash) :
    Location.namesOfEntry (Location.join output (storedAt hash)) =
      Location.namesOfEntry output ++ [storeName, hash] := by
  rw [Location.namesOfEntry_join (isAbsolute_storedAt hash) written, namesOfEntry_storedAt isName]

/-- The parent of the path of a stored file, if it has one, is a path to the store. -/
theorem parent?_join_storedAt {parent : String} (written : output ≠ "") (isName : IsName hash)
    (found : Location.parent? (Location.join output (storedAt hash)) = some parent)
    (named : parent ≠ "") :
    Location.namesOfEntry parent = Location.namesOfEntry output ++ [storeName] ∧
      Location.isAbsolute parent = Location.isAbsolute output := by
  obtain ⟨later, names, single⟩ := Location.namesOfEntry_of_parent? found named
  rw [namesOfEntry_join_storedAt written isName] at names
  refine ⟨single.eq_of_append (by decide) (by simp [isName.not_isIdle]) names.symm, ?_⟩
  rw [← Location.isAbsolute_of_parent? found named,
    Location.isAbsolute_join (isAbsolute_storedAt hash) written]

/-- Making the directories above a stored file puts the store at a free place or does nothing,
whether it succeeds or fails. -/
theorem left_makeParents (reaches : disk.Reaches output limit there) (isName : IsName hash) :
    (Disk.makeParents (Location.join output (storedAt hash))).left disk = disk ∨
      disk.node? (there ++ [storeName]) = none ∧
        (Disk.makeParents (Location.join output (storedAt hash))).left disk =
          disk.put (there ++ [storeName]) .directory := by
  rw [Disk.makeParents]
  cases found : Location.parent? (Location.join output (storedAt hash)) with
  | none => exact .inl rfl
  | some parent =>
      by_cases named : parent = ""
      · subst named
        exact .inl rfl
      · obtain ⟨names, absolute⟩ := parent?_join_storedAt reaches.written isName found named
        exact reaches.left_makeDirectories names absolute named

/-- The path of a stored file is refused, or it leads to a place in the store, unless there are
links in its way. -/
theorem spot_of_find_stored (rooted : disk.IsRooted) (reaches : disk.Reaches output limit there)
    (isName : IsName hash)
    (store : ∀ target, disk.node? (there ++ [storeName]) ≠ some (.link target))
    (final : ∀ target, disk.node? (there ++ [storeName, hash]) ≠ some (.link target))
    {aim : Disk.Aim} {spot : Disk.Spot}
    (found : disk.find aim (Location.join output (storedAt hash))
      (Location.names (Location.join output (storedAt hash))) = .ok spot) :
    spot = ⟨there ++ [storeName, hash], disk.node? (there ++ [storeName, hash])⟩ ∧
      disk.node? (there ++ [storeName]) = some .directory := by
  have absolute := Location.isAbsolute_join (isAbsolute_storedAt hash) reaches.written
  have ends : Location.endsInSlash (Location.join output (storedAt hash)) = false :=
    ((endsIn_storedAt hash).join output).endsInSlash_eq isName
  have start := reaches.directory rooted
  rw [Location.names_eq_namesOfEntry ends, namesOfEntry_join_storedAt reaches.written isName,
    reaches.find_eq absolute (List.cons_ne_nil _ _) (by simp)] at found
  have blocks : disk.Blocks (disk.onward aim limit) there [storeName, hash] := by
    intro before later target split nonempty link
    rcases before with _ | ⟨first, _ | ⟨second, others⟩⟩
    · rw [List.append_nil, start] at link
      cases link
    · rw [List.singleton_append, List.cons.injEq] at split
      rw [← split.1] at link
      exact absurd link (store target)
    · simp at split
      exact absurd split.2.2.2 nonempty
  cases checked : Disk.checkPath (Location.join output (storedAt hash)) with
  | error error =>
      rw [checked] at found
      cases found
  | ok =>
      rw [checked] at found
      simp only at found
      rw [Disk.walk_eq] at found
      exact Disk.spot_of_walkNames (isName_stored isName) blocks start (.inr final) found

/-- No file is stored under any digest where the store has just been made. -/
theorem lookForFile_new_store (reaches : disk.Reaches output limit there) (isName : IsName hash)
    (store : disk.node? (there ++ [storeName]) = some .directory)
    (free : disk.node? (there ++ [storeName] ++ [hash]) = none) (place : Place)
    (found : ByteArray) :
    disk.lookForFile (Location.join output (storedAt hash)) ≠ .ok ⟨place, some (.file found)⟩ := by
  have absolute := Location.isAbsolute_join (isAbsolute_storedAt hash) reaches.written
  have ends : Location.endsInSlash (Location.join output (storedAt hash)) = false :=
    ((endsIn_storedAt hash).join output).endsInSlash_eq isName
  have further : [hash] ≠ [""] := by simpa using isName.ne_empty
  have none : [] ≠ [""] := (List.cons_ne_nil _ _).symm
  rw [Disk.lookForFile, Location.names_eq_namesOfEntry ends,
    namesOfEntry_join_storedAt reaches.written isName,
    reaches.find_eq absolute (List.cons_ne_nil _ _) (by simp)]
  cases Disk.checkPath (Location.join output (storedAt hash)) with
  | error error => rintro ⟨⟩
  | ok =>
      simp only
      rw [Disk.walk_eq, Disk.walkNames_directory Disk.isName_storeName (by decide) further store]
      by_cases long : Location.nameLimit < hash.utf8ByteSize
      · rw [Disk.walkNames_tooLong isName long none]
        rintro ⟨⟩
      · rw [Disk.walkNames_free isName long none free, if_pos rfl]
        rintro ⟨⟩

/-- Once the directories above it have been made, no file is found in place of a stored file that
was not there. -/
theorem lookForFile_new (rooted : disk.IsRooted) (reaches : disk.Reaches output limit there)
    (isName : IsName hash)
    (absent : ¬Disk.isThere (disk.look (Location.join output (storedAt hash)))) (place : Place)
    (found : ByteArray) :
    ((Disk.makeParents (Location.join output (storedAt hash))).left disk).lookForFile
        (Location.join output (storedAt hash)) ≠ .ok ⟨place, some (.file found)⟩ := by
  rcases left_makeParents reaches isName with same | ⟨free, same⟩
  · rw [same]
    intro there
    obtain ⟨passes, arrives⟩ := Disk.find_eq_ok_iff.mp there
    have look := Disk.find_eq_ok_iff.mpr ⟨passes, arrives.target_of_file⟩
    rw [Disk.look, look] at absent
    exact absent rfl
  · rw [same]
    refine lookForFile_new_store (reaches.of_adds (Disk.adds_put free _)) isName ?_ ?_ place found
    · rw [Disk.node?_put (by simp), if_pos rfl]
    · rw [Disk.node?_put (by simp), if_neg (by simp)]
      exact rooted.tree.free (List.cons_ne_nil _ _) (by simp [free])

/-- Keeping a content in an output directory that is there adds to the disk. -/
theorem keep_adds {content : ByteArray} (rooted : disk.IsRooted)
    (reaches : disk.Reaches output limit there) (isName : IsName hash)
    (done : keep output hash content disk = .ok () after) :
    disk.Adds after ∧ after.IsRooted := by
  by_cases absent : Disk.isThere (disk.look (Location.join output (storedAt hash)))
  · rw [keep_there absent] at done
    cases done
    exact ⟨.refl disk, rooted⟩
  rw [keep_absent absent] at done
  obtain ⟨_, between, parents, written⟩ := Disk.bind_ok done
  have new := lookForFile_new rooted reaches isName absent
  have left := left_makeParents reaches isName
  rw [DiskStep.left_ok parents] at left new
  rcases left with rfl | ⟨free, rfl⟩
  · exact Disk.write_adds rooted new written
  · have apart : disk.node? (there ++ [storeName]) ≠ some .directory := by simp [free]
    have made := rooted.put apart (reaches.directory rooted) .directory
    obtain ⟨more, after⟩ := Disk.write_adds made new written
    exact ⟨(Disk.adds_put free _).trans more, after⟩

end Lockfile
end TagStore
