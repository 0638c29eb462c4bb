import TagStore.Proofs.Database.Intact
import TagStore.Proofs.Database.Saving
import TagStore.Proofs.Lockfile.Shields

/-!
# Catalogs apart from links and lockfile

Links can stand anywhere, so a link may take the place of the catalog, and the paths of the catalog
and the lockfile may lead to one file.  If neither is so, an edit that succeeds leaves the edited
catalog to be loaded, and a catalog that is saved as it is stays what it is, even if committing
fails.  Wherever the catalog is, it is apart if its path leads elsewhere than that of the lockfile
and no link has a name that is looked up on the way to one of them.
-/

namespace TagStore

open Disk (storeName)

namespace Database

variable {disk stocked turned after : Disk} {place : Place} {database : Database}
  {catalog next : Catalog} {lockfile made : Lockfile} {mode : EditMode} {changes : Changes Item}
  {catalogPath : String} {met : String → Prop}

/-- Carrying out changes has left what the path of the catalog leads to, and that of the lockfile
leads elsewhere. -/
structure KeepsCatalog (catalogPath : String) (disk turned : Disk) : Prop where
  untouched : turned.lookForFile catalogPath = disk.lookForFile catalogPath
  apart : turned.LeadApart catalogPath (lockfileOf catalogPath)

/-- Carrying out the changes of an edit leaves a disk that is related to the one before. -/
def Carries (relation : Disk → Disk → Prop) (database : Database) (next : Catalog) (disk : Disk) :
    Prop :=
  ∀ made stocked,
    Lockfile.ofCatalog next database.lockfile database.output false disk = .ok made stocked →
    relation stocked (((database.changesTo made).carryOut database.output).left stocked)

/-! ## Committing -/

/-- Once it has been committed, a catalog is what its path leads to, and the lockfile is loaded with
its tags read back. -/
theorem commit_saves
    (apart : ((changes.carryOut database.output).left disk).LeadApart database.catalogPath
      (lockfileOf database.catalogPath))
    (done : database.commit changes next made disk = .ok () after) :
    (∃ place, after.lookForFile database.catalogPath =
      .ok ⟨place, some (.file next.toText.toUTF8)⟩) ∧
      loadLockfile after (lockfileOf database.catalogPath) = .ok made.reread := by
  obtain ⟨_, turned, carried, saved⟩ := Disk.bind_ok done
  obtain ⟨_, between, first, second⟩ := Disk.bind_ok saved
  rw [DiskStep.left_ok carried] at apart
  obtain ⟨place, found⟩ := Disk.lookForFile_of_write first
  exact ⟨⟨place, (apart.of_write first).lookForFile_of_write found second⟩,
    loadLockfile_of_write second⟩

/-- Writing what is saved and then to a path that leads elsewhere leaves what is saved, even if the
latter fails. -/
theorem lookForFile_left_writes {path other : String} {content text : ByteArray}
    (apart : disk.LeadApart path other)
    (saved : disk.lookForFile path = .ok ⟨place, some (.file content)⟩) :
    (DiskStep.left (do Disk.write path content; Disk.write other text) disk).lookForFile path =
      .ok ⟨place, some (.file content)⟩ := by
  have again := Disk.write_of_lookForFile saved
  have same : DiskStep.left (do Disk.write path content; Disk.write other text) disk =
      (Disk.write other text).left disk := by
    simp only [DiskStep.left, bind, EStateM.bind, again]
  rw [same]
  cases last : Disk.write other text disk with
  | ok _ after =>
      rw [DiskStep.left_ok last]
      exact apart.lookForFile_of_write saved last
  | error error after =>
      rw [DiskStep.left_error last, Disk.write_error last]
      exact saved

/-- Committing a catalog that is saved leaves it what its path leads to, even if it fails. -/
theorem KeepsCatalog.left_commit
    (keeps : KeepsCatalog database.catalogPath disk ((changes.carryOut database.output).left disk))
    (saved : disk.lookForFile database.catalogPath =
      .ok ⟨place, some (.file next.toText.toUTF8)⟩) :
    ((database.commit changes next made).left disk).lookForFile database.catalogPath =
      .ok ⟨place, some (.file next.toText.toUTF8)⟩ := by
  have kept := keeps.untouched.trans saved
  rw [commit]
  rcases DiskStep.left_bind (changes.carryOut database.output) _ disk with
    same | ⟨_, turned, carried, same⟩
  · rw [same]
    exact kept
  · have apart := keeps.apart
    rw [DiskStep.left_ok carried] at kept apart
    rw [same]
    exact lookForFile_left_writes apart kept

/-! ## Names of links -/

/-- The paths of the catalog and the lockfile lead apart, and certain names, among them all that are
looked up on the way, are not those of links, of the store or of contents. -/
structure IsAside (met : String → Prop) (database : Database) (next : Catalog) (disk : Disk) :
    Prop extends Lockfile.IsOpen disk database.output where
  apart : disk.LeadApart database.catalogPath (lockfileOf database.catalogPath)
  catalogWay : ∀ name, disk.Meets database.catalogPath name → met name
  lockfileWay : ∀ name, disk.Meets (lockfileOf database.catalogPath) name → met name
  store : ¬met storeName
  digests : ∀ content, ¬met (digest content)
  hashes : ∀ id lock, database.lockfile.locks.get? id = some lock →
    '/' ∉ lock.hash.toList ∧ ¬met lock.hash
  names : database.lockfile.HasFreeNames met
  links : next.HasFreeLinks met

/-- An edit of a database that is aside keeps its catalog. -/
theorem IsAside.carries (aside : database.IsAside met next disk) :
    database.Carries (KeepsCatalog database.catalogPath) next disk := by
  intro made stocked recorded
  obtain ⟨limit, there, reaches⟩ := aside.there
  have secures : disk.Secures met database.output := reaches.secures
    isFileName_lockfileName.toIsName isFileName_lockfileName.short aside.lockfileWay
  have keeps (name : String) (isMet : met name) :
      met name ∧ ¬database.lockfile.Discards made name := by
    refine ⟨isMet, fun discards => ?_⟩
    obtain ⟨id, lock, found, rfl⟩ := discards.exists_lock
    exact (aside.hashes id lock found).2 isMet
  have stows : disk.Shields met (fun _ => False) _ :=
    aside.shields_ofCatalog aside.store aside.digests next database.lockfile false
  rw [DiskStep.left_ok recorded] at stows
  have first := stows.agrees fun name isMet => ⟨isMet, id⟩
  have shields := Lockfile.shields_changes secures keeps stows.rooted first
    (fun id lock found => (aside.hashes id lock found).1) aside.names
    (aside.links.of_ofCatalog recorded)
  -- Both paths lead where they led at the start.
  have both := first.trans (shields.agrees keeps)
  refine ⟨?_, fun place node found one two => ?_⟩
  · rw [changesTo, both.lookForFile_eq aside.catalogWay, first.lookForFile_eq aside.catalogWay]
  · rw [changesTo, both.lookForFile_eq aside.catalogWay] at one
    rw [changesTo, both.lookForFile_eq aside.lockfileWay] at two
    exact aside.apart place node found one two

end Database

namespace Command

open Database (KeepsCatalog lockfileOf)

variable {command : Command} {catalogPath : String} {clock : Nat} {disk : Disk}

/-- The edit of a command, if it saves, leaves a related disk once its changes are carried out. -/
def Carries (relation : Disk → Disk → Prop) (command : Command) (catalogPath : String)
    (clock : Nat) (disk : Disk) : Prop :=
  ∀ database mode next, Database.open disk catalogPath = .ok database →
    command.edited? database.catalog clock = some (mode, next) → mode.dry = false →
    database.Carries relation next disk

/-- With the links of a command, the paths of the catalog and the lockfile lead apart. -/
def LeadsApart (command : Command) (catalogPath : String) (clock : Nat) (disk : Disk) : Prop :=
  command.Carries (fun _ turned => turned.LeadApart catalogPath (lockfileOf catalogPath))
    catalogPath clock disk

/-- The links of a command leave the catalog alone, which is apart from the lockfile. -/
def KeepsApart (command : Command) (catalogPath : String) (clock : Nat) (disk : Disk) : Prop :=
  command.Carries (KeepsCatalog catalogPath) catalogPath clock disk

theorem KeepsApart.leadsApart (keeps : command.KeepsApart catalogPath clock disk) :
    command.LeadsApart catalogPath clock disk :=
  fun database mode next opened edited wet made stocked recorded =>
    (keeps database mode next opened edited wet made stocked recorded).apart

end Command

end TagStore
