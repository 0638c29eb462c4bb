import TagStore.Proofs.Database.Commit
import TagStore.Proofs.Lockfile.Orderly

/-!
# The catalog and the lockfile are as they have been saved

Whatever else is on a disk, and whether commands succeed or fail, no command but one that saves
the catalog or the lockfile gives them a content.  So where there is one, it is read back as it has
been saved.  A command that saves and succeeds leaves a lockfile with a record of each file of the
catalog.
-/

namespace TagStore

open Location (Avoids ofParts)

namespace Database

open Command.Invocation (defaultCatalogPath)

/-- The names of the catalog and its lockfile. -/
def reservedNames : List String := [catalogName, lockfileName]

theorem notMem_reservedNames {word : String} (isWord : Tag.Edit.isWord word) :
    word ∉ reservedNames := by
  have apart : ∀ name ∈ reservedNames, ¬Tag.Edit.isWord name := by decide
  exact fun reserved => apart word reserved isWord

/-! ## What is saved -/

/-- Nothing, a directory, or a file with the text of something. -/
def IsText {α : Type} (text : α → String) (kind : α → Prop) (node : Option Node) : Prop :=
  ∀ found ∈ node, found = .directory ∨ ∃ value, kind value ∧ found = .file (text value).toUTF8

/-- The catalog on a disk, if there is one, has been saved and is of a kind. -/
def HasCatalog (kind : Catalog → Prop) (disk : Disk) : Prop :=
  IsText Catalog.toText kind (disk.node? (disk.home ++ [catalogName]))

/-- A disk where no link leads to the catalog or the lockfile, and these are as they are saved. -/
structure IsKept (disk : Disk) : Prop where
  links : disk.LinksAvoid reservedNames
  catalog : IsText Catalog.toText Catalog.IsOrderly (disk.node? (disk.home ++ [catalogName]))
  lockfile : IsText Lockfile.toText Lockfile.IsOrderly (disk.node? (disk.home ++ [lockfileName]))

section Text

variable {α : Type} {text : α → String} {kind : α → Prop} {node : Option Node}

theorem IsText.not_link (isText : IsText text kind node) (target : String) :
    node ≠ some (.link target) := by
  rintro rfl
  rcases isText _ rfl with directory | ⟨_, _, file⟩
  · cases directory
  · cases file

theorem isText_file {value : α} (holds : kind value) :
    IsText text kind (some (.file (text value).toUTF8)) := by
  intro found same
  cases same
  exact .inr ⟨value, holds, rfl⟩

theorem IsText.spared {later : Option Node} (isText : IsText text kind node)
    (spares : later = node ∨ later = none ∨ later = some .directory) : IsText text kind later := by
  rcases spares with rfl | rfl | rfl
  · exact isText
  · intro found none
    cases none
  · intro found same
    cases same
    exact .inl rfl

end Text

variable {disk after : Disk} {catalog next : Catalog} {lockfile made : Lockfile}
  {kind : Catalog → Prop}

theorem not_avoids {name : String} (reserved : name ∈ reservedNames) (home : Place) :
    ¬Avoids reservedNames (home ++ [name]) :=
  fun avoids => Location.avoids_concat.mp avoids reserved

theorem HasCatalog.spared (has : HasCatalog kind disk) (spares : disk.Spares reservedNames after) :
    HasCatalog kind after := by
  rw [HasCatalog, spares.home]
  exact IsText.spared has (spares.nodes _ (not_avoids List.mem_cons_self disk.home))

theorem IsKept.spared (kept : IsKept disk) (spares : disk.Spares reservedNames after) :
    IsKept after where
  links := spares.links
  catalog := HasCatalog.spared kept.catalog spares
  lockfile := by
    rw [spares.home]
    exact kept.lockfile.spared
      (spares.nodes _ (not_avoids (List.mem_cons_of_mem _ List.mem_cons_self) disk.home))

/-! ## Loading -/

theorem HasCatalog.loadCatalog_ok (has : HasCatalog kind disk) (empty : kind {})
    (loaded : loadCatalog disk defaultCatalogPath = .ok catalog) : kind catalog := by
  rw [defaultCatalogPath_eq] at loaded
  rcases load_ok isFileName_catalogName has.not_link loaded with rfl | ⟨content, file, read⟩
  · exact empty
  · rcases has _ file with directory | ⟨saved, holds, same⟩
    · cases directory
    · cases same
      rw [saved.ofBytes_toText] at read
      cases read
      exact holds

theorem IsKept.loadCatalog_ok (kept : IsKept disk)
    (loaded : loadCatalog disk defaultCatalogPath = .ok catalog) : catalog.IsOrderly :=
  HasCatalog.loadCatalog_ok kept.catalog Catalog.hasAll_empty loaded

theorem IsKept.loadLockfile_ok (kept : IsKept disk)
    (loaded : loadLockfile disk (lockfileOf defaultCatalogPath) = .ok lockfile) :
    lockfile.IsOrderly := by
  rw [lockfileOf_default] at loaded
  rcases load_ok isFileName_lockfileName kept.lockfile.not_link loaded with
    rfl | ⟨content, file, read⟩
  · exact Lockfile.isOrderly_empty
  · rcases kept.lockfile _ file with directory | ⟨saved, orderly, same⟩
    · cases directory
    · cases same
      rw [saved.ofBytes_toText orderly.isPlain] at read
      cases read
      exact orderly

theorem IsKept.open_ok {database : Database} (kept : IsKept disk)
    (opened : Database.open disk defaultCatalogPath = .ok database) :
    ∃ catalog lockfile, database = ⟨catalog, lockfile, defaultCatalogPath⟩ ∧
      lockfile.IsOrderly ∧ catalog.IsOrderly := by
  obtain ⟨catalog, lockfile, rfl, catalogLoaded, lockfileLoaded⟩ := open_eq_ok opened
  exact ⟨catalog, lockfile, rfl, kept.loadLockfile_ok lockfileLoaded,
    kept.loadCatalog_ok catalogLoaded⟩

/-! ## Saving -/

theorem linksAvoid_put_file (links : disk.LinksAvoid reservedNames) (place : Place)
    (content : ByteArray) : (disk.put place (.file content)).LinksAvoid reservedNames := by
  intro other target there
  rcases disk.node?_put_cases place (.file content) other with same | ⟨-, new⟩
  · exact links other target (same ▸ there)
  · rw [new] at there
    cases there

theorem node?_put_name (name other : String) (node : Node) :
    (disk.put (disk.home ++ [name]) node).node?
        ((disk.put (disk.home ++ [name]) node).home ++ [other]) =
      if other = name then some node else disk.node? (disk.home ++ [other]) := by
  rw [Disk.node?_put (Disk.place_ne_nil (List.cons_ne_nil _ _)), Disk.home_put]
  simp

theorem hasCatalog_put (holds : kind catalog) :
    HasCatalog kind (disk.put (disk.home ++ [catalogName]) (.file catalog.toText.toUTF8)) := by
  rw [HasCatalog, node?_put_name, if_pos rfl]
  exact isText_file holds

theorem HasCatalog.put_other (has : HasCatalog kind disk) {name : String}
    (other : catalogName ≠ name) (node : Node) :
    HasCatalog kind (disk.put (disk.home ++ [name]) node) := by
  rwa [HasCatalog, node?_put_name, if_neg other]

theorem IsKept.putCatalog (kept : IsKept disk) (orderly : catalog.IsOrderly) :
    IsKept (disk.put (disk.home ++ [catalogName]) (.file catalog.toText.toUTF8)) where
  links := linksAvoid_put_file kept.links _ _
  catalog := hasCatalog_put orderly
  lockfile := by
    rw [node?_put_name, if_neg (by decide)]
    exact kept.lockfile

theorem IsKept.putLockfile (kept : IsKept disk) (orderly : lockfile.IsOrderly) :
    IsKept (disk.put (disk.home ++ [lockfileName]) (.file lockfile.toText.toUTF8)) where
  links := linksAvoid_put_file kept.links _ _
  catalog := HasCatalog.put_other kept.catalog (by decide) _
  lockfile := by
    rw [node?_put_name, if_pos rfl]
    exact isText_file orderly

theorem IsKept.writeCatalog (kept : IsKept disk) (content : ByteArray) :
    Disk.write defaultCatalogPath content disk =
      if disk.node? (disk.home ++ [catalogName]) = some .directory then .error .isDirectory disk
      else .ok () (disk.put (disk.home ++ [catalogName]) (.file content)) := by
  rw [defaultCatalogPath_eq]
  exact Disk.write_name isFileName_catalogName kept.catalog.not_link content

theorem IsKept.writeLockfile (kept : IsKept disk) (content : ByteArray) :
    Disk.write (lockfileOf defaultCatalogPath) content disk =
      if disk.node? (disk.home ++ [lockfileName]) = some .directory then .error .isDirectory disk
      else .ok () (disk.put (disk.home ++ [lockfileName]) (.file content)) := by
  rw [lockfileOf_default]
  exact Disk.write_name isFileName_lockfileName kept.lockfile.not_link content

theorem left_write {holds : Disk → Prop} {name : String} {content : ByteArray} (before : holds disk)
    (isName : Disk.IsFileName name)
    (final : ∀ target, disk.node? (disk.home ++ [name]) ≠ some (.link target))
    (put : holds (disk.put (disk.home ++ [name]) (.file content))) :
    holds ((Disk.write (ofParts [".", name]) content).left disk) := by
  have written := Disk.write_name isName final content
  split at written
  · rwa [DiskStep.left_error written]
  · rwa [DiskStep.left_ok written]

theorem HasCatalog.left_writeCatalog (has : HasCatalog kind disk) (holds : kind catalog) :
    HasCatalog kind ((Disk.write defaultCatalogPath catalog.toText.toUTF8).left disk) := by
  rw [defaultCatalogPath_eq]
  exact left_write has isFileName_catalogName has.not_link (hasCatalog_put holds)

theorem HasCatalog.left_writeLockfile (has : HasCatalog kind disk) (kept : IsKept disk)
    (content : ByteArray) :
    HasCatalog kind ((Disk.write (lockfileOf defaultCatalogPath) content).left disk) := by
  rw [lockfileOf_default]
  exact left_write has isFileName_lockfileName kept.lockfile.not_link
    (has.put_other (by decide) _)

theorem IsKept.left_writeCatalog (kept : IsKept disk) (orderly : catalog.IsOrderly) :
    IsKept ((Disk.write defaultCatalogPath catalog.toText.toUTF8).left disk) := by
  rw [defaultCatalogPath_eq]
  exact left_write kept isFileName_catalogName kept.catalog.not_link (kept.putCatalog orderly)

theorem IsKept.left_writeLockfile (kept : IsKept disk) (orderly : lockfile.IsOrderly) :
    IsKept ((Disk.write (lockfileOf defaultCatalogPath) lockfile.toText.toUTF8).left disk) := by
  rw [lockfileOf_default]
  exact left_write kept isFileName_lockfileName kept.lockfile.not_link (kept.putLockfile orderly)

/-! ## Edits -/

/-- The catalog and a lockfile with a record of each of its files are saved. -/
structure Settled (disk : Disk) (catalog : Catalog) (lockfile : Lockfile) : Prop where
  catalogSaved : disk.node? (disk.home ++ [catalogName]) = some (.file catalog.toText.toUTF8)
  lockfileSaved : disk.node? (disk.home ++ [lockfileName]) = some (.file lockfile.toText.toUTF8)
  orderly : lockfile.IsOrderly
  records : lockfile.Records catalog

section Commit

variable {database : Database} {changes : Changes Item}

/-- Committing ends after the changes, after the catalog has been written, or after the lockfile has
been written. -/
theorem left_commit_cases (next : Catalog) (made : Lockfile)
    (opened : database.catalogPath = defaultCatalogPath) (links : disk.LinksAvoid reservedNames)
    (named : ∀ item ∈ changes.created, item.EndsInWords) :
    let saveCatalog := Disk.write defaultCatalogPath next.toText.toUTF8
    let saveLockfile := Disk.write (lockfileOf defaultCatalogPath) made.toText.toUTF8
    let left := (database.commit changes next made).left disk
    ∃ turned, disk.Spares reservedNames turned ∧ (left = turned ∨
      left = saveCatalog.left turned ∨ left = saveLockfile.left (saveCatalog.left turned)) := by
  intro saveCatalog saveLockfile left
  have spares := Changes.spares_carryOut (fun _ => notMem_reservedNames) database.output named
  simp only [left, Database.commit, opened]
  rcases DiskStep.left_bind (changes.carryOut database.output) _ disk with
    same | ⟨_, turned, carried, same⟩
  · exact ⟨_, spares disk links, .inl same⟩
  · refine ⟨turned, spares.ok links carried, .inr ?_⟩
    rw [same]
    rcases DiskStep.left_bind saveCatalog _ turned with same | ⟨_, between, written, same⟩
    · exact .inl same
    · rw [DiskStep.left_ok written]
      exact .inr same

theorem HasCatalog.left_commit (has : HasCatalog kind disk) (holds : kind next)
    (opened : database.catalogPath = defaultCatalogPath) (kept : IsKept disk)
    (orderly : next.IsOrderly) (named : ∀ item ∈ changes.created, item.EndsInWords) :
    HasCatalog kind ((database.commit changes next made).left disk) := by
  obtain ⟨turned, spares, ends⟩ := left_commit_cases next made opened kept.links named
  have saved := (has.spared spares).left_writeCatalog holds
  rcases ends with same | same | same
  · rw [same]
    exact has.spared spares
  · rwa [same]
  · rw [same]
    exact saved.left_writeLockfile ((kept.spared spares).left_writeCatalog orderly) _

variable (opened : database.catalogPath = defaultCatalogPath) (kept : IsKept disk)
  (orderly : next.IsOrderly) (madeOrderly : made.IsOrderly)
  (named : ∀ item ∈ changes.created, item.EndsInWords)
include opened kept orderly madeOrderly named

/-- Committing changes keeps the disk, whether it succeeds or fails. -/
theorem IsKept.left_commit : IsKept ((database.commit changes next made).left disk) := by
  obtain ⟨turned, spares, ends⟩ := left_commit_cases next made opened kept.links named
  have saved := (kept.spared spares).left_writeCatalog orderly
  rcases ends with same | same | same
  · rw [same]
    exact kept.spared spares
  · rwa [same]
  · rw [same]
    exact saved.left_writeLockfile madeOrderly

/-- Changes that have been committed leave the catalog and the lockfile saved. -/
theorem IsKept.settled_of_commit (records : made.Records next)
    (done : database.commit changes next made disk = .ok () after) : Settled after next made := by
  obtain ⟨_, turned, carried, saved⟩ := Disk.bind_ok done
  obtain ⟨_, between, first, second⟩ := Disk.bind_ok saved
  have spares := Changes.spares_carryOut (fun _ => notMem_reservedNames) database.output named
  have kept := kept.spared (spares.ok kept.links carried)
  rw [opened, kept.writeCatalog] at first
  split at first
  · cases first
  · cases first
    rw [opened, (kept.putCatalog orderly).writeLockfile] at second
    split at second
    · cases second
    · cases second
      refine ⟨?_, ?_, madeOrderly, records⟩
      · rw [node?_put_name, if_neg (by decide), node?_put_name, if_pos rfl]
      · rw [node?_put_name, if_pos rfl]

end Commit

/-- What a command leaves: a disk that is kept, and settled if the command saves and succeeds. -/
structure Leaves (saves : Prop) (report : Report) : Prop where
  kept : IsKept report.disk
  settled : saves → report.failure = none → ∃ catalog lockfile, Settled report.disk catalog lockfile

theorem leaves_of_failure (kept : IsKept disk) (saves : Prop) (failure : Failure)
    (printed : String) : Leaves saves { failure := some failure, printed, disk } :=
  ⟨kept, fun _ none => nomatch none⟩

section Edit

variable {database : Database} (opened : database.catalogPath = defaultCatalogPath)
  (kept : IsKept disk) (before : database.lockfile.IsOrderly) (orderly : next.IsOrderly)
  (mode : EditMode)

include kept before orderly in
/-- An edit stops before anything is committed, or commits the changes to an orderly lockfile with
the records of the new catalog. -/
theorem IsKept.edit_cases :
    (disk.Spares reservedNames (database.edit mode next disk).disk ∧
      (mode.dry = false → (database.edit mode next disk).failure ≠ none)) ∨
    ∃ made stocked, disk.Spares reservedNames stocked ∧ made.IsOrderly ∧ made.Records next ∧
      (∀ item ∈ (database.changesTo made).created, item.EndsInWords) ∧
      (database.edit mode next disk).disk =
        (database.commit (database.changesTo made) next made).left stocked ∧
      ((database.edit mode next disk).failure = none →
        database.commit (database.changesTo made) next made stocked =
          .ok () (database.edit mode next disk).disk) := by
  have spares := Lockfile.spares_recordAll (fun _ => notMem_reservedNames) database.lockfile
    database.output mode.dry next.files.entries {}
  have records {made : Lockfile} {stocked : Disk} {dry : Bool}
      (recorded : Lockfile.ofCatalog next database.lockfile database.output dry disk =
        .ok made stocked) : made.IsOrderly ∧ made.Records next := by
    obtain ⟨hashes, digests, locks, -⟩ := Lockfile.ofCatalog_ok recorded
    exact ⟨before.of_digests orderly digests locks, hashes, locks⟩
  have way := edit_way database mode next disk
  generalize database.edit mode next disk = report at way ⊢
  cases way with
  | unmade recorded =>
      exact .inl ⟨spares.error kept.links recorded, fun _ => Option.some_ne_none _⟩
  | dry dry recorded =>
      rw [dry] at spares
      exact .inl ⟨spares.ok kept.links recorded, fun wet => absurd (dry.symm.trans wet) (by decide)⟩
  | committed wet recorded committed =>
      rw [wet] at spares
      obtain ⟨madeOrderly, records⟩ := records recorded
      exact .inr ⟨_, _, spares.ok kept.links recorded, madeOrderly, records,
        fun _ => madeOrderly.endsInWords, (DiskStep.left_ok committed).symm, fun _ => committed⟩
  | uncommitted wet recorded committed =>
      rw [wet] at spares
      obtain ⟨madeOrderly, records⟩ := records recorded
      exact .inr ⟨_, _, spares.ok kept.links recorded, madeOrderly, records,
        fun _ => madeOrderly.endsInWords, (DiskStep.left_error committed).symm,
        fun none => absurd none (Option.some_ne_none _)⟩

include opened kept before orderly

/-- An edit leaves the catalog that was there or the one that it puts in its place. -/
theorem HasCatalog.edit (has : HasCatalog kind disk) (holds : kind next) :
    HasCatalog kind (database.edit mode next disk).disk := by
  rcases kept.edit_cases before orderly mode with
    ⟨spares, -⟩ | ⟨made, stocked, spares, -, -, named, same, -⟩
  · exact has.spared spares
  · rw [same]
    exact (has.spared spares).left_commit holds opened (kept.spared spares) orderly named

theorem IsKept.edit : Leaves (mode.dry = false) (database.edit mode next disk) := by
  rcases kept.edit_cases before orderly mode with
    ⟨spares, fails⟩ | ⟨made, stocked, spares, madeOrderly, records, named, same, succeeds⟩
  · exact ⟨kept.spared spares, fun wet done => absurd done (fails wet)⟩
  · have kept := kept.spared spares
    refine ⟨?_, fun _ done => ⟨next, made, ?_⟩⟩
    · rw [same]
      exact kept.left_commit opened orderly madeOrderly named
    · exact kept.settled_of_commit opened orderly madeOrderly named records (succeeds done)

end Edit

end Database

/-- A command that saves what it has edited, unless it fails. -/
def Command.Saves : Command → Prop
  | add mode .. => mode.dry = false
  | remove mode _ => mode.dry = false
  | tag mode .. => mode.dry = false
  | search _ => False
  | sync mode => mode.dry = false

namespace Database

open Command.Invocation (defaultCatalogPath)

variable {disk : Disk}

/-- A command leaves a disk that is kept, and settled if it saves and succeeds. -/
theorem IsKept.run (kept : IsKept disk) {command : Command}
    (wellFormed : ∀ edit ∈ command.edits, edit.tag.IsWellFormed) (clock : Nat) :
    Leaves command.Saves (command.run defaultCatalogPath clock disk) := by
  rw [Command.run]
  cases opened : Database.open disk defaultCatalogPath with
  | error failure => exact leaves_of_failure kept _ _ _
  | ok database =>
      obtain ⟨catalog, lockfile, rfl, before, orderly⟩  := kept.open_ok opened
      cases command with
      | add mode source edits =>
          have file := FileRecord.isOrderly_ofEdits source wellFormed
          exact kept.edit rfl before (orderly.add (catalog.isWord_freshId clock) file) mode
      | remove mode query =>
          simp only [Database.run]
          cases Query.ofArguments query with
          | error invalid => exact leaves_of_failure kept _ _ _
          | ok query => exact kept.edit rfl before (orderly.remove query) mode
      | tag mode query edits =>
          simp only [Database.run]
          cases Query.ofArgument query with
          | error invalid => exact leaves_of_failure kept _ _ _
          | ok query => exact kept.edit rfl before (orderly.retag query wellFormed) mode
      | search query =>
          simp only [Database.run]
          cases Query.ofArguments query with
          | error invalid => exact leaves_of_failure kept _ _ _
          | ok query => exact ⟨kept, fun none => none.elim⟩
      | sync mode => exact kept.edit rfl before orderly mode

end Database
end TagStore
