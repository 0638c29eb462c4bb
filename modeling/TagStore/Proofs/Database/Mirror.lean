import TagStore.Proofs.Database.Commit

/-!
# Output directories mirror their catalog

Begin in a working directory without links and without any of the files of a database, and carry out
commands that succeed.  After each of them the lockfile that is loaded has the files of the catalog
that is loaded, the store has exactly the contents with a digest in the lockfile, and the links are
exactly those of the tags in the lockfile.
-/

namespace TagStore

open Disk (storeName)
open Command.Invocation (defaultCatalogPath)

/-! ## Commands that succeed -/

/-- An edit whose value does not name a directory that is always there. -/
def Tag.Edit.IsOrdinary (edit : Edit) : Prop :=
  edit.tag.value ≠ some "." ∧ edit.tag.value ≠ some ".."

theorem Command.IsGiven.isLinkable {command : Command} (given : command.IsGiven)
    (ordinary : ∀ edit ∈ command.edits, edit.IsOrdinary) :
    ∀ edit ∈ command.edits, edit.tag.IsLinkable := by
  intro edit member
  obtain ⟨_, read⟩ := given.isWritten edit member
  obtain ⟨ne_dot, ne_up⟩ := ordinary edit member
  exact ⟨Tag.Edit.isWellFormed_of_ofText? read, ne_dot, ne_up⟩

namespace Database

/-- A working directory to begin with: files and directories, and none of the names that a database
uses. -/
structure IsFresh (disk : Disk) : Prop extends disk.IsRooted where
  unlinked : ∀ names target, disk.node? (disk.home ++ names) ≠ some (.link target)
  uncatalogued : disk.node? (disk.home ++ [catalogName]) = none
  unlocked : disk.node? (disk.home ++ [lockfileName]) = none
  unstored : disk.node? (disk.home ++ [storeName]) = none

/-- The disks to which commands lead that command lines give and that succeed. -/
inductive Reached (start : Disk) : Disk → Prop
  /-- No command leads to the disk at the start. -/
  | start : Reached start start
  /-- A command leads on. -/
  | step {disk : Disk} (command : Command) (clock : Nat) : Reached start disk →
      command.IsGiven → (∀ edit ∈ command.edits, edit.IsOrdinary) →
      (command.run defaultCatalogPath clock disk).failure = none →
      Reached start (command.run defaultCatalogPath clock disk).disk

/-- The output directory has what the catalog in it calls for, and nothing else. -/
structure IsMirror (disk : Disk) (catalog : Catalog) (lockfile : Lockfile) : Prop where
  loadsCatalog : loadCatalog disk defaultCatalogPath = .ok catalog
  loadsLockfile : loadLockfile disk (lockfileOf defaultCatalogPath) = .ok lockfile
  locks : lockfile.locks.map (fun _ lock => (lock.source, lock.tags)) =
    catalog.files.map fun _ file => (file.source, file.tags)
  stored : ∀ id lock, lockfile.locks.get? id = some lock →
    ∃ content, disk.node? (disk.home ++ [".hash", lock.hash]) = some (.file content) ∧
      digest content = lock.hash
  needed : ∀ names node, names ≠ [] → disk.node? (disk.home ++ ".hash" :: names) = some node →
    ∃ id lock, lockfile.locks.get? id = some lock ∧ names = [lock.hash]
  links : ∀ names target, disk.node? (disk.home ++ names) = some (.link target) ↔
    ∃ id lock, lockfile.locks.get? id = some lock ∧ ∃ path ∈ LinkTable.paths lock id,
      names = Location.namesOfEntry path ∧
      target = Location.join (disk.absolute ".") (Lockfile.storedAt lock.hash)

variable {start disk : Disk} {catalog : Catalog} {lockfile : Lockfile}

/-! ## What a database on disk says -/

theorem Holds.exists_lock_of_stored (holds : Holds disk catalog lockfile) {names : List String}
    {node : Node} (nonempty : names ≠ [])
    (there : disk.node? (disk.home ++ storeName :: names) = some node) :
    ∃ id lock, lockfile.locks.get? id = some lock ∧ names = [lock.hash] := by
  have fits := holds.sound.fits _ _ there
  cases node with
  | directory => simp [Disk.Fits, nonempty] at fits
  | link target => simp [Disk.Fits] at fits
  | file content =>
      obtain outside | ⟨hash, same⟩ := fits
      · exact absurd rfl outside
      cases same
      have digested := holds.addressed hash content there
      obtain ⟨id, lock, found, rfl⟩ := (holds.stored hash).mp ⟨content, there, digested⟩
      exact ⟨id, lock, found, rfl⟩

theorem Holds.link_iff (holds : Holds disk catalog lockfile) {names : List String}
    {target : String} :
    disk.node? (disk.home ++ names) = some (.link target) ↔
      ∃ id lock, lockfile.locks.get? id = some lock ∧ ∃ path ∈ LinkTable.paths lock id,
        names = Location.namesOfEntry path ∧
        target = Location.join (disk.absolute ".") (Lockfile.storedAt lock.hash) := by
  have tidy := holds.isTidy
  rw [holds.linked]
  constructor
  · rintro ⟨_, ⟨id, lock, tag, found, listed, rfl, rfl⟩, rfl⟩
    refine ⟨id, lock, found, linkPath id tag, List.mem_map.mpr ⟨tag, listed, rfl⟩, ?_, ?_⟩
    · exact (namesOfEntry_linkPath (tidy.word found) (tidy.linkable found tag listed)).symm
    · exact (Disk.join_storedAt holds.sound.toIsRooted (tidy.hash found)).symm
  · rintro ⟨id, lock, found, path, listed, rfl, rfl⟩
    obtain ⟨tag, member, rfl⟩ := List.mem_map.mp listed
    refine ⟨lock.hash, ⟨id, lock, tag, found, member, ?_, rfl⟩, ?_⟩
    · exact namesOfEntry_linkPath (tidy.word found) (tidy.linkable found tag member)
    · exact Disk.join_storedAt holds.sound.toIsRooted (tidy.hash found)

theorem Holds.isMirror (holds : Holds disk catalog lockfile) : IsMirror disk catalog lockfile where
  loadsCatalog := holds.loadCatalog_eq
  loadsLockfile := holds.loadLockfile_eq
  locks := by
    obtain ⟨hashes, locks⟩ := holds.records
    rw [locks]
    apply Index.ext_entries
    simp only [Index.map, List.map_map]
    rfl
  stored := by
    intro id lock found
    exact (holds.stored lock.hash).mpr ⟨id, lock, found, rfl⟩
  needed := fun _ _ nonempty there => holds.exists_lock_of_stored nonempty there
  links := fun _ _ => holds.link_iff

/-! ## The start -/

theorem IsFresh.store_free (fresh : IsFresh start) (names : List String) :
    start.node? (start.home ++ storeName :: names) = none :=
  fresh.toIsRooted.store_free fresh.unstored names

theorem IsFresh.isSound (fresh : IsFresh start) : start.IsSound where
  toIsRooted := fresh.toIsRooted
  fits := by
    intro names node there
    have outside : names.head? ≠ some storeName := by
      intro inside
      obtain ⟨rest, rfl⟩ := List.head?_eq_some_iff.mp inside
      rw [fresh.store_free] at there
      cases there
    cases node with
    | file content => exact .inl outside
    | directory => exact .inl outside
    | link target => exact absurd there (fresh.unlinked names target)

/-- A working directory to begin with holds the empty database. -/
theorem IsFresh.holds (fresh : IsFresh start) : Holds start {} {} where
  sound := fresh.isSound
  addressed := by
    intro hash content there
    rw [fresh.store_free] at there
    cases there
  stored := by
    intro hash
    constructor
    · rintro ⟨content, there, -⟩
      rw [fresh.store_free] at there
      cases there
    · rintro ⟨_, _, none, -⟩
      cases none
  linked := by
    intro names target
    constructor
    · intro there
      exact absurd there (fresh.unlinked names target)
    · rintro ⟨_, ⟨_, _, _, none, -⟩, -⟩
      cases none
  catalogSaved := .inr ⟨rfl, fresh.uncatalogued⟩
  lockfileSaved := .inr ⟨rfl, fresh.unlocked⟩
  tidy := Catalog.isTidy_empty
  records := Lockfile.records_empty

/-! ## One command -/

/-- The working directory is where it was and holds some database. -/
def HoldsAt (home : Place) (disk : Disk) : Prop :=
  disk.home = home ∧ ∃ catalog lockfile, Holds disk catalog lockfile

theorem Holds.holdsAt_edit (holds : Holds disk catalog lockfile) {mode : EditMode}
    {next : Catalog} (tidy : next.IsTidy)
    (done : (Database.edit ⟨catalog, lockfile, defaultCatalogPath⟩ mode next disk).failure = none) :
    HoldsAt disk.home
      (Database.edit ⟨catalog, lockfile, defaultCatalogPath⟩ mode next disk).disk := by
  have edited := holds.edit mode tidy rfl done
  split at edited
  · rw [edited]
    exact ⟨rfl, catalog, lockfile, holds⟩
  · obtain ⟨⟨made, held⟩, home⟩ := edited
    exact ⟨home, next, made, held⟩

/-- A command that succeeds leaves some database. -/
theorem Holds.holdsAt_run (holds : Holds disk catalog lockfile) {command : Command} {clock : Nat}
    (linkable : ∀ edit ∈ command.edits, edit.tag.IsLinkable)
    (done : (command.run defaultCatalogPath clock disk).failure = none) :
    HoldsAt disk.home (command.run defaultCatalogPath clock disk).disk := by
  rw [run_of_open holds.open_eq] at done ⊢
  rcases run_ways ⟨catalog, lockfile, defaultCatalogPath⟩ command clock disk with
    ⟨_, -, -, ran⟩ | ⟨mode, next, -, edited, ran⟩ | ⟨_, -, -, ran⟩
  · rw [ran] at done
    cases done
  · rw [ran] at done ⊢
    exact holds.holdsAt_edit (holds.tidy.edited linkable edited) done
  · rw [ran]
    exact ⟨rfl, catalog, lockfile, holds⟩

/-! ## Runs -/

theorem Reached.holdsAt (reached : Reached start disk) (fresh : IsFresh start) :
    HoldsAt start.home disk := by
  induction reached with
  | start => exact ⟨rfl, {}, {}, fresh.holds⟩
  | step command clock _ given ordinary done induction =>
      obtain ⟨home, catalog, lockfile, holds⟩ := induction
      exact home ▸ holds.holdsAt_run (given.isLinkable ordinary) done

/-- After every run of commands that succeed, the output directory mirrors the catalog in it. -/
theorem isMirror_of_reached (fresh : IsFresh start) (reached : Reached start disk) :
    disk.home = start.home ∧ ∃ catalog lockfile, IsMirror disk catalog lockfile := by
  obtain ⟨home, catalog, lockfile, holds⟩ := reached.holdsAt fresh
  exact ⟨home, catalog, lockfile, holds.isMirror⟩

/-- A root directory with one file in it. -/
def oneFile : Disk := Disk.put {} ["photo"] (.file "fur".toUTF8)

/-- Add the file with a tag. -/
def addPhoto : Command := .add {} "photo" [⟨.add, ⟨["cat"], none⟩⟩]

theorem node?_oneFile (place : Place) :
    oneFile.node? place =
      if place = ["photo"] then some (.file "fur".toUTF8)
      else if place = [] then some .directory else none :=
  Disk.node?_put (List.cons_ne_nil _ _) _ place

theorem isFresh_oneFile : IsFresh oneFile where
  toIsRooted := by decide
  unlinked := by
    intro names target there
    rw [node?_oneFile] at there
    split at there
    · cases there
    · split at there <;> cases there
  uncatalogued := by decide
  unlocked := by decide
  unstored := by decide

theorem failure_addPhoto : (addPhoto.run defaultCatalogPath 7 oneFile).failure = none := by
  decide +kernel

theorem isMirror_addPhoto :
    IsFresh oneFile ∧ (addPhoto.run defaultCatalogPath 7 oneFile).failure = none ∧
      ∃ catalog lockfile,
        IsMirror (addPhoto.run defaultCatalogPath 7 oneFile).disk catalog lockfile := by
  have given : addPhoto.IsGiven := ⟨none, ["add", "photo", "+cat"], defaultCatalogPath, by rfl⟩
  have ordinary : ∀ edit ∈ addPhoto.edits, edit.IsOrdinary := by
    intro edit member
    rw [List.mem_singleton.mp member]
    exact ⟨by decide, by decide⟩
  have done : (addPhoto.run defaultCatalogPath 7 oneFile).failure = none := failure_addPhoto
  have reached : Reached oneFile (addPhoto.run defaultCatalogPath 7 oneFile).disk :=
    .step addPhoto 7 .start given ordinary done
  exact ⟨isFresh_oneFile, done, (isMirror_of_reached isFresh_oneFile reached).2⟩

end Database
end TagStore
