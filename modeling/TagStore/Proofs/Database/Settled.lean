import TagStore.Proofs.Database.Kept
import TagStore.Proofs.Database.Mirror
import TagStore.Proofs.Links.Outline

/-!
# Nothing is left to do after an edit

After a command that saves and succeeds, every digest that the catalog calls for is in the lockfile.
Syncing then reads no source, finds no changes and saves what has been saved.
-/

namespace TagStore

open Location (ofParts)

namespace Database

open Command.Invocation (defaultCatalogPath)

variable {start disk later : Disk} {catalog : Catalog} {lockfile : Lockfile}

/-! ## Runs -/

/-- A disk without a catalog and a lockfile, where no link has one of their names at the end of what
it points at. -/
structure IsVacant (disk : Disk) : Prop where
  links : disk.LinksAvoid reservedNames
  uncatalogued : disk.node? (disk.home ++ [catalogName]) = none
  unlocked : disk.node? (disk.home ++ [lockfileName]) = none

/-- The disks to which commands lead whose edits have been read from texts, successful or not. -/
inductive Ran (start : Disk) : Disk → Prop
  /-- No command leads to the disk at the start. -/
  | start : Ran start start
  /-- A command leads on, even if it fails. -/
  | step {disk : Disk} (command : Command) (clock : Nat) : Ran start disk →
      (∀ edit ∈ command.edits, Command.IsWritten edit) →
      Ran start (command.run defaultCatalogPath clock disk).disk

theorem isWellFormed_of_isWritten {command : Command}
    (written : ∀ edit ∈ command.edits, Command.IsWritten edit) :
    ∀ edit ∈ command.edits, edit.tag.IsWellFormed := by
  intro edit member
  obtain ⟨_, read⟩ := written edit member
  exact Tag.Edit.isWellFormed_of_ofText? read

theorem IsVacant.isKept (vacant : IsVacant start) : IsKept start where
  links := vacant.links
  catalog := by
    rw [vacant.uncatalogued]
    exact fun _ none => nomatch none
  lockfile := by
    rw [vacant.unlocked]
    exact fun _ none => nomatch none

theorem Ran.isKept (ran : Ran start disk) (vacant : IsVacant start) : IsKept disk := by
  induction ran with
  | start => exact vacant.isKept
  | step command clock _ written induction =>
      exact (induction.run (isWellFormed_of_isWritten written) clock).kept

/-! ## Syncing -/

/-- The catalog and the lockfile are the same on two disks. -/
structure SameDatabase (disk later : Disk) : Prop where
  home : later.home = disk.home
  catalog : later.node? (disk.home ++ [catalogName]) = disk.node? (disk.home ++ [catalogName])
  lockfile : later.node? (disk.home ++ [lockfileName]) = disk.node? (disk.home ++ [lockfileName])

theorem sameDatabase_drop {place : Place} (nonempty : place ≠ [])
    (other : ∀ name ∈ reservedNames, disk.home ++ [name] ≠ place) :
    SameDatabase disk (disk.drop place) where
  home := disk.home_drop place
  catalog := by
    rw [Disk.node?_drop nonempty, if_neg (other _ List.mem_cons_self)]
  lockfile := by
    rw [Disk.node?_drop nonempty, if_neg (other _ (List.mem_cons_of_mem _ List.mem_cons_self))]

theorem Settled.of_same (settled : Settled disk catalog lockfile)
    (same : SameDatabase disk later) : Settled later catalog lockfile where
  catalogSaved := by rw [same.home, same.catalog, settled.catalogSaved]
  lockfileSaved := by rw [same.home, same.lockfile, settled.lockfileSaved]
  orderly := settled.orderly
  records := settled.records

theorem Settled.open_eq (settled : Settled disk catalog lockfile) :
    Database.open disk defaultCatalogPath = .ok ⟨catalog, lockfile, defaultCatalogPath⟩ := by
  have one : loadCatalog disk defaultCatalogPath = .ok catalog := by
    rw [defaultCatalogPath_eq]
    exact load_of_saves isFileName_catalogName (.inl settled.catalogSaved) catalog.ofBytes_toText
  have two : loadLockfile disk (lockfileOf defaultCatalogPath) = .ok lockfile := by
    rw [lockfileOf_default]
    exact load_of_saves isFileName_lockfileName (.inl settled.lockfileSaved)
      (lockfile.ofBytes_toText settled.orderly.isPlain)
  rw [Database.open, one, two]
  rfl

/-- Saving what is saved changes nothing. -/
theorem write_saved {name : String} {content : ByteArray} (isName : Disk.IsFileName name)
    (saved : disk.node? (disk.home ++ [name]) = some (.file content)) :
    Disk.write (ofParts [".", name]) content disk = .ok () disk := by
  rw [Disk.write_name isName (by simp [saved]), if_neg (by simp [saved]),
    Disk.put_of_node? (Disk.place_ne_nil (List.cons_ne_nil _ _)) saved]

theorem carryOut_of_isEmpty {changes : Changes Item} (empty : changes.isEmpty = true)
    (output : String) : changes.carryOut output disk = .ok () disk := by
  rcases changes with ⟨created, removed⟩
  rw [Changes.isEmpty, Bool.and_eq_true, List.isEmpty_iff, List.isEmpty_iff] at empty
  obtain ⟨rfl, rfl⟩ := empty
  rfl

theorem isEmpty_changesTo_self (database : Database) :
    (database.changesTo database.lockfile).isEmpty = true :=
  LinkTable.changes_isEmpty_iff.mpr ⟨fun _ => Iff.rfl, fun _ _ => Iff.rfl⟩

theorem Settled.commit_eq (settled : Settled disk catalog lockfile) {changes : Changes Item}
    (empty : changes.isEmpty = true) :
    Database.commit ⟨catalog, lockfile, defaultCatalogPath⟩ changes catalog lockfile disk =
      .ok () disk := by
  have one : Disk.write defaultCatalogPath catalog.toText.toUTF8 disk = .ok () disk := by
    rw [defaultCatalogPath_eq]
    exact write_saved isFileName_catalogName settled.catalogSaved
  have two : Disk.write (lockfileOf defaultCatalogPath) lockfile.toText.toUTF8 disk =
      .ok () disk := by
    rw [lockfileOf_default]
    exact write_saved isFileName_lockfileName settled.lockfileSaved
  simp only [Database.commit, bind, EStateM.bind, carryOut_of_isEmpty empty, one, two]

/-- Syncing a disk that is settled prints nothing and changes nothing. -/
theorem Settled.sync (settled : Settled disk catalog lockfile) {mode : EditMode}
    (plain : mode.json = false) (clock : Nat) :
    (Command.sync mode).run defaultCatalogPath clock disk = { disk } := by
  have empty := isEmpty_changesTo_self ⟨catalog, lockfile, defaultCatalogPath⟩
  have printed : mode.report
      (Database.changesTo ⟨catalog, lockfile, defaultCatalogPath⟩ lockfile) = "" := by
    rw [EditMode.report, plain, if_neg Bool.false_ne_true, if_pos empty]
  simp only [Command.run, settled.open_eq, Database.run, Database.edit,
    settled.records.ofCatalog_eq, printed]
  cases mode.dry with
  | true => rfl
  | false => simp only [settled.commit_eq empty, Bool.false_eq_true, if_false]

/-- After a command that saves and succeeds, syncing prints nothing and changes nothing, whatever
has become of the disk apart from the catalog and the lockfile. -/
theorem sync_after_saving {command : Command} {clock now : Nat} {mode : EditMode}
    (vacant : IsVacant start) (ran : Ran start disk)
    (written : ∀ edit ∈ command.edits, Command.IsWritten edit) (saves : command.Saves)
    (done : (command.run defaultCatalogPath clock disk).failure = none)
    (same : SameDatabase (command.run defaultCatalogPath clock disk).disk later)
    (plain : mode.json = false) :
    (Command.sync mode).run defaultCatalogPath now later =
      { failure := none, printed := "", disk := later } := by
  have leaves := (ran.isKept vacant).run (isWellFormed_of_isWritten written) clock
  obtain ⟨catalog, lockfile, settled⟩ := leaves.settled saves done
  exact (settled.of_same same).sync plain now

/-! ## Instances -/

theorem isVacant_oneFile : IsVacant oneFile where
  links := fun place target there => absurd there (isFresh_oneFile.unlinked place target)
  uncatalogued := isFresh_oneFile.uncatalogued
  unlocked := isFresh_oneFile.unlocked

/-- Once it has been added, the file is not needed any more. -/
theorem sync_without_photo :
    let added := addPhoto.run defaultCatalogPath 7 oneFile
    let later := added.disk.drop ["photo"]
    IsVacant oneFile ∧ Ran oneFile oneFile ∧ (∀ edit ∈ addPhoto.edits, Command.IsWritten edit) ∧
      addPhoto.Saves ∧ added.failure = none ∧ SameDatabase added.disk later ∧
      (Command.sync {}).run defaultCatalogPath 8 later =
        { failure := none, printed := "", disk := later } := by
  intro added later
  have written : ∀ edit ∈ addPhoto.edits, Command.IsWritten edit := by
    intro edit member
    rw [List.mem_singleton.mp member]
    exact ⟨"+cat", by decide⟩
  have apart : ∀ name ∈ reservedNames, added.disk.home ++ [name] ≠ ["photo"] := by
    intro name reserved same
    obtain ⟨-, photo⟩ := List.append_eq_singleton_iff.mp same |>.resolve_right (by simp)
    rw [List.cons.inj photo |>.1] at reserved
    revert reserved
    decide
  have same : SameDatabase added.disk later := sameDatabase_drop (List.cons_ne_nil _ _) apart
  exact ⟨isVacant_oneFile, .start, written, rfl, failure_addPhoto, same,
    sync_after_saving isVacant_oneFile .start written rfl failure_addPhoto same rfl⟩

/-- Add the catalog itself. -/
def addCatalog : Command := .add {} catalogName [⟨.add, ⟨["a"], none⟩⟩]

/-- The text of a catalog with a tag that is not read back from its own text. -/
def oddText : String := "\x7b\"files\":\x7b\"x\":[\"s\",[\x7b\"a:b\":\"c\"\x7d]]\x7d\x7d"

/-- A file with this text, a link to the catalog where its content is to be stored, and a file in
the way of its link. -/
def oddDisk : Disk :=
  let files := Disk.put (Disk.put {} ["s"] (.file oddText.toUTF8)) ["t"] (.file .empty)
  let store := files.put [".hash"] .directory
  store.put [".hash", digest oddText.toUTF8] (.link "../images.config.json")

/-- Syncing has something to do again if the catalog was a source and has gone with the other
sources, and if a content has been stored as the catalog, where a link led to it. -/
theorem sync_repeats_changes :
    (let listed := (Command.sync {}).run defaultCatalogPath 7 {}
      let added := addCatalog.run defaultCatalogPath 8 listed.disk
      let later := added.disk.drop [catalogName]
      let again := (Command.sync {}).run defaultCatalogPath 9 later
      listed.failure = none ∧ added.failure = none ∧ again.failure = none ∧
        again.printed ≠ "" ∧ again.disk ≠ later) ∧
    (let added := (Command.add {} "s" [⟨.add, ⟨["t"], none⟩⟩]).run defaultCatalogPath 7 oddDisk
      let synced := (Command.sync {}).run defaultCatalogPath 8 added.disk
      let again := (Command.sync {}).run defaultCatalogPath 9 synced.disk
      oddDisk.node? [catalogName] = none ∧ oddDisk.node? [lockfileName] = none ∧
        synced.failure = none ∧ again.printed ≠ "") := by
  constructor
  · decide +kernel
  · decide +kernel

end Database
end TagStore
