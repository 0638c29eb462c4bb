import TagStore.Proofs.Lockfile.Keep
import TagStore.Proofs.Lockfile.Steps

/-!
# What is stored stays stored

Making a lockfile in the working directory adds contents to the store, each under its digest,
whatever else is on the disk, and changes nothing else.  This is so whether it succeeds or fails.
If it succeeds, there is a content in the store for each record, provided that there was one for
each record of the lockfile before it.
-/

namespace TagStore

open Disk (storeName)
open Location (IsName)

namespace Disk

/-- The store is a directory, if it is there, and what it has under digests are contents with these
digests. -/
structure HasStore (disk : Disk) : Prop extends disk.IsRooted where
  store : ∀ node, disk.node? (disk.home ++ [storeName]) = some node → node = .directory
  addressed : ∀ content node, disk.node? (disk.home ++ [storeName, digest content]) = some node →
    ∃ held, node = .file held ∧ digest held = digest content

/-- Where the store is, or a content in it. -/
def IsStorePlace (home place : Place) : Prop :=
  place = home ++ [storeName] ∨ ∃ content, place = home ++ [storeName, digest content]

/-- A disk with further contents in the store. -/
structure Stows (before after : Disk) : Prop where
  hasStore : after.HasStore
  home : after.home = before.home
  nodes : ∀ place, after.node? place = before.node? place ∨
    before.node? place = none ∧ IsStorePlace before.home place

variable {disk between after : Disk} {hash : String} {content : ByteArray}

theorem Stows.refl (hasStore : disk.HasStore) : disk.Stows disk :=
  ⟨hasStore, rfl, fun _ => .inl rfl⟩

theorem Stows.trans (first : disk.Stows between) (second : between.Stows after) :
    disk.Stows after where
  hasStore := second.hasStore
  home := second.home.trans first.home
  nodes := by
    intro place
    rcases second.nodes place with same | ⟨free, stored⟩
    · rw [same]
      exact first.nodes place
    · rcases first.nodes place with same | new
      · exact .inr ⟨same ▸ free, first.home ▸ stored⟩
      · exact .inr new

theorem chains_stows : Chains fun before after => before.HasStore → before.Stows after where
  refl := fun _ => .refl
  trans := fun first second hasStore => (first hasStore).trans (second (first hasStore).hasStore)

theorem Stows.node?_eq (stows : disk.Stows after) {place : Place}
    (other : ¬IsStorePlace disk.home place) : after.node? place = disk.node? place :=
  (stows.nodes place).resolve_right fun new => other new.2

/-- What is stored stays stored. -/
theorem Stows.isStored (stows : disk.Stows after) (stored : disk.IsStored hash) :
    after.IsStored hash := by
  obtain ⟨content, there, digested⟩ := stored
  refine ⟨content, ?_, digested⟩
  rw [stows.home, ← there]
  refine (stows.nodes _).resolve_right fun new => ?_
  rw [there] at new
  cases new.1

/-! ## New nodes -/

theorem HasStore.put_store (hasStore : disk.HasStore)
    (free : disk.node? (disk.home ++ [storeName]) = none) :
    disk.Stows (disk.put (disk.home ++ [storeName]) .directory) where
  home := rfl
  nodes := by
    intro place
    rcases disk.node?_put_cases (disk.home ++ [storeName]) .directory place with same | ⟨rfl, -⟩
    · exact .inl same
    · exact .inr ⟨free, .inl rfl⟩
  hasStore := by
    refine ⟨hasStore.toIsRooted.put (by simp [free]) hasStore.home_directory _, ?_, ?_⟩
    · intro node there
      rw [home_put, node?_put (by simp), if_pos rfl] at there
      exact (Option.some.inj there).symm
    · intro content node there
      rw [home_put, node?_put (by simp), if_neg (by simp)] at there
      exact hasStore.addressed content node there

theorem HasStore.put_content (hasStore : disk.HasStore)
    (store : disk.node? (disk.home ++ [storeName]) = some .directory)
    (free : disk.node? (disk.home ++ [storeName, digest content]) = none) :
    disk.Stows (disk.put (disk.home ++ [storeName, digest content]) (.file content)) where
  home := rfl
  nodes := by
    intro place
    rcases disk.node?_put_cases (disk.home ++ [storeName, digest content]) (.file content) place
      with same | ⟨rfl, -⟩
    · exact .inl same
    · exact .inr ⟨free, .inr ⟨content, rfl⟩⟩
  hasStore := by
    have inner : disk.home ++ [storeName, digest content] =
        disk.home ++ [storeName] ++ [digest content] := List.append_cons _ _ _
    refine ⟨?_, ?_, ?_⟩
    · rw [inner] at free ⊢
      exact hasStore.toIsRooted.put (fun there => nomatch free.symm.trans there) store _
    · intro node there
      rw [home_put, node?_put (by simp), if_neg (by simp)] at there
      exact hasStore.store node there
    · intro other node there
      rw [home_put, node?_put (by simp)] at there
      split at there
      · rename_i same
        cases there
        simp only [List.append_cancel_left_eq, List.cons.injEq, and_true, true_and] at same
        exact ⟨content, rfl, same.symm⟩
      · exact hasStore.addressed other node there

end Disk

namespace Lockfile

variable {disk after : Disk} {hash : String} {content : ByteArray}

/-- Where a path in the store leads, if it leads anywhere. -/
theorem spot_of_find_home (hasStore : disk.HasStore) {aim : Disk.Aim} {spot : Disk.Spot}
    (found : disk.find aim (Location.join "." (storedAt (digest content)))
      (Location.names (Location.join "." (storedAt (digest content)))) = .ok spot) :
    spot = ⟨disk.home ++ [storeName, digest content],
        disk.node? (disk.home ++ [storeName, digest content])⟩ ∧
      disk.node? (disk.home ++ [storeName]) = some .directory := by
  refine spot_of_find_stored hasStore.toIsRooted (Disk.reaches_dot disk) (isName_digest content)
    (fun target link => ?_) (fun target link => ?_) found
  · cases hasStore.store _ link
  · obtain ⟨held, file, -⟩ := hasStore.addressed _ _ link
    cases file

/-- Writing a stored file that was not found puts it into the store, if it succeeds. -/
theorem write_stored (hasStore : disk.HasStore)
    (new : ∀ place found, disk.lookForFile (Location.join "." (storedAt (digest content))) ≠
      .ok ⟨place, some (.file found)⟩) :
    (∃ error, Disk.write (Location.join "." (storedAt (digest content))) content disk =
      .error error disk) ∨
    ∃ after, Disk.write (Location.join "." (storedAt (digest content))) content disk =
      .ok () after ∧ disk.Stows after ∧ after.IsStored (digest content) := by
  simp only [Disk.write]
  rcases found : disk.lookForFile (Location.join "." (storedAt (digest content))) with
    error | ⟨place, node⟩
  · exact .inl ⟨error, rfl⟩
  · obtain ⟨same, store⟩ := spot_of_find_home hasStore found
    obtain ⟨rfl, there⟩ := Disk.Spot.mk.inj same
    rcases node with _ | held | target | _
    · refine .inr ⟨_, rfl, hasStore.put_content store there.symm, content, ?_, rfl⟩
      rw [Disk.home_put, Disk.node?_put (by simp), if_pos rfl]
    · exact absurd found (new _ held)
    · obtain ⟨held, file, -⟩ := hasStore.addressed content _ there.symm
      cases file
    · exact .inl ⟨.isDirectory, rfl⟩

theorem isStored_of_look (hasStore : disk.HasStore)
    (there : Disk.isThere (disk.look (Location.join "." (storedAt (digest content))))) :
    disk.IsStored (digest content) := by
  obtain ⟨place, node, found⟩ := exists_of_isThere there
  obtain ⟨same, -⟩ := spot_of_find_home hasStore found
  obtain ⟨rfl, there⟩ := Disk.Spot.mk.inj same
  obtain ⟨held, rfl, digested⟩ := hasStore.addressed content node there.symm
  exact ⟨held, there.symm, digested⟩

theorem stows_makeParents (hasStore : disk.HasStore) (isName : IsName hash) :
    disk.Stows ((Disk.makeParents (Location.join "." (storedAt hash))).left disk) := by
  rcases left_makeParents (Disk.reaches_dot disk) isName with same | ⟨free, same⟩
  · rw [same]
    exact .refl hasStore
  · rw [same]
    exact hasStore.put_store free

/-- Keeping a content in the working directory adds to the store alone, and the content is in the
store if it succeeds. -/
theorem stows_keep (hasStore : disk.HasStore) (content : ByteArray) :
    disk.Stows ((keep "." (digest content) content).left disk) ∧
      ∀ after, keep "." (digest content) content disk = .ok () after →
        after.IsStored (digest content) := by
  by_cases there : Disk.isThere (disk.look (Location.join "." (storedAt (digest content))))
  · have nothing : keep "." (digest content) content disk = .ok () disk := keep_there there
    rw [DiskStep.left_ok nothing, nothing]
    refine ⟨.refl hasStore, fun after done => ?_⟩
    cases done
    exact isStored_of_look hasStore there
  · have isName := isName_digest content
    have placed : keep "." (digest content) content disk =
        Disk.place (Location.join "." (storedAt (digest content))) content disk :=
      keep_absent there
    have stows := stows_makeParents hasStore isName
    have new := lookForFile_new hasStore.toIsRooted (Disk.reaches_dot disk) isName there
    rw [DiskStep.left_congr placed, placed, Disk.place]
    cases parents : Disk.makeParents (Location.join "." (storedAt (digest content))) disk with
    | error error between =>
        rw [DiskStep.left_error parents] at stows
        simp only [DiskStep.left, bind, EStateM.bind, parents]
        exact ⟨stows, by rintro _ ⟨⟩⟩
    | ok _ between =>
        rw [DiskStep.left_ok parents] at stows new
        simp only [DiskStep.left, bind, EStateM.bind, parents]
        rcases write_stored stows.hasStore new with ⟨error, failed⟩ | ⟨after, done, more, stored⟩
        · rw [failed]
          exact ⟨stows, by rintro _ ⟨⟩⟩
        · rw [done]
          refine ⟨stows.trans more, fun other same => ?_⟩
          cases same
          exact stored

/-! ## Records -/

variable {previous lockfile : Lockfile} {dry : Bool}

/-- Making a lockfile in the working directory adds to the store alone, whether it succeeds or
fails. -/
theorem stows_ofCatalog (catalog : Catalog) (previous : Lockfile) (dry : Bool)
    (hasStore : disk.HasStore) : disk.Stows ((ofCatalog catalog previous "." dry).left disk) :=
  Disk.chains_stows.recordAll (fun _ content _ hasStore => (stows_keep hasStore content).1) previous
    catalog.files.entries {} disk hasStore

/-- There is a content in the store for each record. -/
def IsBacked (lockfile : Lockfile) (disk : Disk) : Prop :=
  ∀ id lock, lockfile.locks.get? id = some lock → disk.IsStored lock.hash

theorem IsBacked.of_stows (backed : lockfile.IsBacked disk) (stows : disk.Stows after) :
    lockfile.IsBacked after :=
  fun id lock found => stows.isStored (backed id lock found)

theorem hashOf_stored {id : String} {file : FileRecord} (hasStore : disk.HasStore)
    (backed : previous.IsBacked disk)
    (done : hashOf previous "." false id file disk = .ok hash after) : after.IsStored hash := by
  cases known : previous.knownHash? id file with
  | some kept =>
      rw [hashOf_known known] at done
      cases done
      obtain ⟨lock, found, same⟩ := Option.bind_eq_some_iff.mp known
      simp only [Option.ite_none_right_eq_some, Option.some.injEq] at same
      exact same.2 ▸ backed id lock found
  | none =>
      rw [hashOf_unknown known] at done
      have way := store_way "." false file.source disk
      rw [done] at way
      cases way with
      | dry dry => cases dry
      | kept _ _ kept => exact (stows_keep hasStore _).2 _ kept

theorem recordAll_backed {files : List (String × FileRecord)} {start : Lockfile}
    (hasStore : disk.HasStore) (backed : previous.IsBacked disk) (begun : start.IsBacked disk)
    (done : recordAll previous "." false files start disk = .ok lockfile after) :
    lockfile.IsBacked after := by
  induction files generalizing start disk with
  | nil =>
      cases done
      exact begun
  | cons entry rest induction =>
      obtain ⟨hash, between, found, later⟩ := Disk.bind_ok done
      have stows : disk.Stows between :=
        (Disk.chains_stows.hashOf (fun _ content _ hasStore => (stows_keep hasStore content).1)
          previous entry.1 entry.2).ok found hasStore
      have stored := hashOf_stored hasStore backed found
      refine induction stows.hasStore (backed.of_stows stows) (fun id lock listed => ?_) later
      rw [Index.get?_insert] at listed
      split at listed
      · cases listed
        exact stored
      · exact stows.isStored (begun id lock listed)

/-- There is a content in the store for each record that has been made. -/
theorem ofCatalog_backed {catalog : Catalog} (hasStore : disk.HasStore)
    (backed : previous.IsBacked disk)
    (done : ofCatalog catalog previous "." false disk = .ok lockfile after) :
    lockfile.IsBacked after := by
  refine recordAll_backed hasStore backed (fun id lock found => ?_) done
  cases found

end Lockfile
end TagStore
