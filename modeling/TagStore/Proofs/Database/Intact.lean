import TagStore.Proofs.Database.Guards
import TagStore.Proofs.Database.Mirror

/-!
# Lockfiles stay backed by the store

A lockfile is backed if there is a content in the store for each of its records.  A command that
succeeds leaves a backed lockfile, and so does one that fails before it removes stored contents,
whatever happens outside of the store meanwhile.  A command that fails after it has removed some
does not: the lockfile that lists them is only replaced at the end.
-/

namespace TagStore

open Disk (storeName)
open Command.Invocation (defaultCatalogPath)

namespace Database

variable {start before disk after between : Disk} {catalog next : Catalog}
  {lockfile made : Lockfile} {gone : String → Prop} {database : Database} {command : Command}
  {clock : Nat} {mode : EditMode}

theorem run_add (database : Database) (mode : EditMode) (source : String) (edits : List Tag.Edit)
    (clock : Nat) (disk : Disk) :
    database.run (.add mode source edits) clock disk =
      database.edit mode (database.catalog.add (database.catalog.freshId clock)
        (FileRecord.ofEdits source edits)) disk := rfl

/-! ## Intact disks -/

/-- A disk with a lockfile that is backed by the store and has no links with reserved names. -/
structure Intact (disk : Disk) (lockfile : Lockfile) : Prop extends disk.HasStore where
  plain : lockfile.IsPlain
  saved : disk.Saves lockfileName lockfile.toText (lockfile = {})
  backed : lockfile.IsBacked disk
  names : lockfile.HasFreeNames IsReserved

theorem Intact.load_eq (intact : Intact disk lockfile) :
    loadLockfile disk (lockfileOf defaultCatalogPath) = .ok lockfile := by
  rw [lockfileOf_default]
  exact load_of_saves isFileName_lockfileName intact.saved (lockfile.ofBytes_toText intact.plain)

theorem Intact.of_guards (intact : Intact disk lockfile) (guards : Disk.Guards gone disk after)
    (stay : ∀ hash, ¬gone hash) : Intact after lockfile where
  toHasStore := guards.hasStore
  plain := intact.plain
  saved := by
    rw [Disk.Saves, guards.home, guards.lockfile]
    exact intact.saved
  backed := fun id lock found => guards.stored lock.hash (stay _) (intact.backed id lock found)
  names := intact.names

theorem Intact.not_link (intact : Intact disk lockfile) (target : String) :
    disk.node? (disk.home ++ [lockfileName]) ≠ some (.link target) := by
  rcases intact.saved with file | ⟨-, free⟩
  · rw [file]
    nofun
  · rw [free]
    nofun

/-- A lockfile that has been saved on a disk with the contents that it relies on is intact. -/
theorem intact_put (hasStore : disk.HasStore) (backed : made.IsBacked disk)
    (names : made.HasFreeNames IsReserved)
    (other : disk.node? (disk.home ++ [lockfileName]) ≠ some .directory) :
    Intact (disk.put (disk.home ++ [lockfileName]) (.file made.toText.toUTF8)) made.reread := by
  have apart : lockfileName ≠ storeName := by decide
  obtain ⟨hasStore, stored⟩ := hasStore.put_file apart other made.toText.toUTF8
  refine ⟨hasStore, made.isPlain_reread, .inl ?_, ?_, Lockfile.hasFreeNames_reread names⟩
  · rw [Lockfile.toText_reread, node?_put_name, if_pos rfl]
  · exact Lockfile.isBacked_reread fun id lock found => stored _ (backed id lock found)

/-! ## Committing -/

/-- Committing up to the last step guards the contents that do not go, and the last step, which
saves the lockfile, is all that can still be done. -/
def CommitsGuarding (gone : String → Prop) (made : Lockfile) (step : DiskStep DiskError Unit)
    (disk : Disk) : Prop :=
  (∃ error after, step disk = .error error after ∧ disk.Guards gone after) ∨
    ∃ between, disk.Guards gone between ∧
      between.node? (between.home ++ [lockfileName]) ≠ some .directory ∧
      step disk =
        .ok () (between.put (between.home ++ [lockfileName]) (.file made.toText.toUTF8))

theorem save_guards (next : Catalog) (made : Lockfile) (hasStore : disk.HasStore)
    (catalogUnlinked : ∀ target, disk.node? (disk.home ++ [catalogName]) ≠ some (.link target))
    (lockfileUnlinked : ∀ target, disk.node? (disk.home ++ [lockfileName]) ≠ some (.link target)) :
    CommitsGuarding gone made (do
      Disk.write defaultCatalogPath next.toText.toUTF8
      Disk.write (lockfileOf defaultCatalogPath) made.toText.toUTF8) disk := by
  have first := Disk.write_name isFileName_catalogName catalogUnlinked next.toText.toUTF8
  rw [lockfileOf_default, defaultCatalogPath_eq]
  simp only [CommitsGuarding, bind, EStateM.bind, first]
  by_cases directory : disk.node? (disk.home ++ [catalogName]) = some .directory
  · rw [if_pos directory]
    exact .inl ⟨_, _, rfl, .refl hasStore⟩
  · rw [if_neg directory]
    have apart : lockfileName ≠ catalogName := by decide
    have guards : disk.Guards gone _ :=
      hasStore.guards_put (by decide) apart directory next.toText.toUTF8
    have unlinked (target : String) :
        (disk.put (disk.home ++ [catalogName]) (.file next.toText.toUTF8)).node?
          ((disk.put (disk.home ++ [catalogName]) (.file next.toText.toUTF8)).home ++
            [lockfileName]) ≠ some (.link target) := by
      rw [node?_put_name, if_neg apart]
      exact lockfileUnlinked target
    have second := Disk.write_name isFileName_lockfileName unlinked made.toText.toUTF8
    simp only [second]
    split
    · exact .inl ⟨_, _, rfl, guards⟩
    · exact .inr ⟨_, guards, ‹_›, rfl⟩

/-- Committing guards the contents that do not go with the changes, and the lockfile until it is
saved at last. -/
theorem Intact.commit_guards (intact : Intact disk database.lockfile) (next : Catalog)
    (opened : database.catalogPath = defaultCatalogPath) (links : made.HasFreeLinks IsReserved)
    (unlinked : ∀ target, disk.node? (disk.home ++ [catalogName]) ≠ some (.link target)) :
    CommitsGuarding (database.lockfile.Discards made) made
      (database.commit (database.changesTo made) next made) disk := by
  have go : Disk.GoDigests (database.lockfile.Discards made) := intact.backed.goDigests
  have shields := intact.backed.shields_changes intact.toIsRooted intact.names links
  have output := output_of_default opened
  rw [CommitsGuarding, commit, output, opened]
  simp only [bind, EStateM.bind]
  cases carried : (database.changesTo made).carryOut "." disk with
  | error error turned =>
      rw [changesTo] at carried
      rw [DiskStep.left_error carried] at shields
      exact .inl ⟨error, turned, rfl, shields.guards go intact.toHasStore⟩
  | ok _ turned =>
      rw [changesTo] at carried
      rw [DiskStep.left_ok carried] at shields
      have guards := shields.guards go intact.toHasStore
      have catalogUnlinked (target : String) :
          turned.node? (turned.home ++ [catalogName]) ≠ some (.link target) := by
        rw [guards.home, shields.node?_name go isReserved_catalogName (by decide)]
        exact unlinked target
      have lockfileUnlinked (target : String) :
          turned.node? (turned.home ++ [lockfileName]) ≠ some (.link target) := by
        rw [guards.home, guards.lockfile]
        exact intact.not_link target
      rcases save_guards next made guards.hasStore catalogUnlinked lockfileUnlinked with
        ⟨error, after, failed, more⟩ | ⟨between, more, other, done⟩
      · exact .inl ⟨error, after, failed, guards.trans more⟩
      · exact .inr ⟨between, guards.trans more, other, done⟩

/-! ## Edits -/

/-- An edit that gives no link a reserved name, does not find a link in place of the catalog and, if
it fails, has no stored content to remove. -/
structure IsHarmless (database : Database) (mode : EditMode) (next : Catalog) (disk : Disk) :
    Prop where
  links : next.HasFreeLinks IsReserved
  unlinked : ∀ target, disk.node? (disk.home ++ [catalogName]) ≠ some (.link target)
  ends : (database.edit mode next disk).failure = none ∨
    ∀ made stocked hash,
      Lockfile.ofCatalog next database.lockfile database.output false disk = .ok made stocked →
      ¬database.lockfile.Discards made hash

/-- After an edit there is an intact lockfile, be it the one before or the one made. -/
theorem Intact.edit (intact : Intact disk database.lockfile)
    (opened : database.catalogPath = defaultCatalogPath)
    (harmless : mode.dry = false → database.IsHarmless mode next disk) :
    (database.edit mode next disk).disk.home = disk.home ∧
      ∃ later, Intact (database.edit mode next disk).disk later := by
  have output := output_of_default opened
  have stows := Lockfile.stows_ofCatalog next database.lockfile mode.dry intact.toHasStore
  have kept {after : Disk} (stows : disk.Stows after) : Intact after database.lockfile := by
    have guards : disk.Guards (fun _ => False) after := stows.guards
    exact intact.of_guards guards fun _ => id
  cases recorded : Lockfile.ofCatalog next database.lockfile "." mode.dry disk with
  | error failure stocked =>
      rw [DiskStep.left_error recorded] at stows
      simp only [Database.edit, output, recorded]
      exact ⟨stows.home, _, kept stows⟩
  | ok made stocked =>
      rw [DiskStep.left_ok recorded] at stows
      simp only [Database.edit, output, recorded]
      cases dry : mode.dry with
      | true => exact ⟨stows.home, _, kept stows⟩
      | false =>
          rw [dry] at recorded
          obtain ⟨links, unlinked, ends⟩ := harmless dry
          have links := links.of_ofCatalog recorded
          have backed := Lockfile.ofCatalog_backed intact.toHasStore intact.backed recorded
          have unlinked (target : String) :
              stocked.node? (stocked.home ++ [catalogName]) ≠ some (.link target) := by
            rw [stows.home, stows.node?_eq (Disk.not_isStorePlace _ (by decide))]
            exact unlinked target
          simp only [Bool.false_eq_true, if_false]
          rcases (kept stows).commit_guards next opened links unlinked with
            ⟨error, after, failed, guards⟩ | ⟨between, guards, other, done⟩
          · -- The lockfile is the one before, and a harmless edit that fails discards nothing.
            rw [failed]
            refine ⟨guards.home.trans stows.home, _, (kept stows).of_guards guards fun hash => ?_⟩
            rcases ends with succeeds | stay
            · simp only [Database.edit, output, dry, recorded, Bool.false_eq_true, if_false, failed,
                reduceCtorEq] at succeeds
            · exact stay made stocked hash (output ▸ recorded)
          · -- No digest of the lockfile that has been saved is discarded.
            rw [done]
            refine ⟨guards.home.trans stows.home, _,
              intact_put guards.hasStore (fun id lock found => ?_) links.hasFreeNames other⟩
            exact guards.stored _ (Lockfile.not_discards found) (backed id lock found)

end Database

/-! ## Runs -/

/-- A command whose edit, if it saves, is harmless. -/
def Command.IsHarmless (command : Command) (clock : Nat) (disk : Disk) : Prop :=
  ∀ database mode next, Database.open disk defaultCatalogPath = .ok database →
    command.edited? database.catalog clock = some (mode, next) → mode.dry = false →
    database.IsHarmless mode next disk

namespace Database

variable {start before disk after : Disk} {lockfile : Lockfile} {command : Command} {clock : Nat}

/-- A change from outside, which leaves the lockfile and the store as they are. -/
structure IsOutside (before after : Disk) : Prop where
  rooted : after.IsRooted
  home : after.home = before.home
  lockfile : after.node? (before.home ++ [lockfileName]) =
    before.node? (before.home ++ [lockfileName])
  store : ∀ names, after.node? (before.home ++ storeName :: names) =
    before.node? (before.home ++ storeName :: names)

/-- The disks to which harmless commands and changes from outside lead. -/
inductive Continues (start : Disk) : Disk → Prop
  /-- Nothing leads to the disk at the start. -/
  | start : Continues start start
  /-- A command leads on, whether it succeeds or fails. -/
  | command {disk : Disk} (command : Command) (clock : Nat) : Continues start disk →
      command.IsHarmless clock disk →
      Continues start (command.run defaultCatalogPath clock disk).disk
  /-- A change from outside leads on. -/
  | outside {before after : Disk} : Continues start before → IsOutside before after →
      Continues start after

theorem Intact.outside (intact : Intact before lockfile) (outside : IsOutside before after) :
    Intact after lockfile := by
  have guards : before.Guards (fun _ => False) after := by
    refine ⟨⟨outside.rooted, fun node there => ?_, fun content node there => ?_⟩, outside.home,
      fun hash _ stored => ?_, outside.lockfile⟩
    · rw [outside.home, outside.store] at there
      exact intact.store node there
    · rw [outside.home, outside.store] at there
      exact intact.addressed content node there
    · rw [Disk.IsStored, outside.home, outside.store]
      exact stored
  exact intact.of_guards guards fun _ => id

theorem Intact.run (intact : Intact disk lockfile) (harmless : command.IsHarmless clock disk) :
    (command.run defaultCatalogPath clock disk).disk.home = disk.home ∧
      ∃ later, Intact (command.run defaultCatalogPath clock disk).disk later := by
  rw [Command.run]
  cases opened : Database.open disk defaultCatalogPath with
  | error failure => exact ⟨rfl, lockfile, intact⟩
  | ok database =>
      obtain ⟨catalog, loaded, rfl, -, found⟩ := open_eq_ok opened
      have same : loaded = lockfile := Except.ok.inj (found.symm.trans intact.load_eq)
      subst same
      rcases run_cases ⟨catalog, loaded, defaultCatalogPath⟩ command clock disk with
        ⟨mode, next, edited, same⟩ | same
      · simp only [same]
        exact intact.edit rfl (harmless _ _ _ opened edited)
      · exact ⟨congrArg Disk.home same, loaded, same.symm ▸ intact⟩

theorem intact_start (rooted : start.IsRooted)
    (unlocked : start.node? (start.home ++ [lockfileName]) = none)
    (unstored : start.node? (start.home ++ [storeName]) = none) : Intact start {} where
  toIsRooted := rooted
  store := fun _ there => nomatch unstored.symm.trans there
  addressed := fun content _ there =>
    nomatch (rooted.store_free unstored [digest content]).symm.trans there
  plain := fun _ none => nomatch none
  saved := .inr ⟨rfl, unlocked⟩
  backed := fun _ _ found => nomatch found
  names := fun _ _ found => nomatch found

theorem Continues.intact (continues : Continues start disk) (rooted : start.IsRooted)
    (unlocked : start.node? (start.home ++ [lockfileName]) = none)
    (unstored : start.node? (start.home ++ [storeName]) = none) :
    disk.home = start.home ∧ ∃ lockfile, Intact disk lockfile := by
  induction continues with
  | start => exact ⟨rfl, {}, intact_start rooted unlocked unstored⟩
  | command command clock _ harmless induction =>
      obtain ⟨home, lockfile, intact⟩ := induction
      obtain ⟨same, later⟩ := intact.run harmless
      exact ⟨same.trans home, later⟩
  | outside _ outside induction =>
      obtain ⟨home, lockfile, intact⟩ := induction
      exact ⟨outside.home.trans home, lockfile, intact.outside outside⟩

/-- Begin without a lockfile and a store.  After every run of commands, successful or not, and of
changes outside of the store, a lockfile is loaded that is backed by the store, unless a command has
failed that had stored contents to remove. -/
theorem isBacked_of_continues (rooted : start.IsRooted)
    (unlocked : start.node? (start.home ++ [lockfileName]) = none)
    (unstored : start.node? (start.home ++ [storeName]) = none)
    (continues : Continues start disk) :
    disk.home = start.home ∧ ∃ lockfile,
      loadLockfile disk (lockfileOf defaultCatalogPath) = .ok lockfile ∧
      lockfile.IsBacked disk := by
  obtain ⟨home, lockfile, intact⟩ := continues.intact rooted unlocked unstored
  exact ⟨home, lockfile, intact.load_eq, intact.backed⟩

theorem isHarmless_addPhoto : addPhoto.IsHarmless 7 oneFile := by
  intro database mode next opened edited wet
  have empty : Database.open oneFile defaultCatalogPath = .ok ⟨{}, {}, defaultCatalogPath⟩ :=
    isFresh_oneFile.holds.open_eq
  have done := failure_addPhoto
  rw [run_of_open empty, addPhoto, run_add] at done
  cases empty.symm.trans opened
  cases edited
  have clock : Catalog.freshId {} 7 = "7" := by decide
  refine ⟨fun id file found tag tagged name listed => ?_, fun target => ?_, .inl done⟩
  · simp only [Catalog.add, Index.get?_insert, clock] at found
    split at found
    · rename_i same
      cases found
      cases List.mem_singleton.mp tagged
      rw [same] at listed
      have free : ∀ name ∈ linkNames "7" (Tag.ofText "cat"),
          name ≠ storeName ∧ name ∉ reservedNames ∧ name.length ≠ 64 := by decide +kernel
      obtain ⟨store, file, length⟩ := free name listed
      exact not_isReserved store file length
    · cases found
  · rw [isFresh_oneFile.uncatalogued]
    exact (Option.some_ne_none _).symm

/-- Adding the photo leaves a lockfile that is backed by the store. -/
theorem isBacked_addPhoto :
    oneFile.IsRooted ∧ oneFile.node? (oneFile.home ++ [lockfileName]) = none ∧
      oneFile.node? (oneFile.home ++ [storeName]) = none ∧
      Continues oneFile (addPhoto.run defaultCatalogPath 7 oneFile).disk ∧
      ∃ lockfile,
        loadLockfile (addPhoto.run defaultCatalogPath 7 oneFile).disk
          (lockfileOf defaultCatalogPath) = .ok lockfile ∧
        lockfile.IsBacked (addPhoto.run defaultCatalogPath 7 oneFile).disk := by
  have rooted := isFresh_oneFile.toIsRooted
  have unlocked := isFresh_oneFile.unlocked
  have unstored := isFresh_oneFile.unstored
  have continues := Continues.command addPhoto 7 .start isHarmless_addPhoto
  exact ⟨rooted, unlocked, unstored, continues,
    (isBacked_of_continues rooted unlocked unstored continues).2⟩

/-- A catalog with one file, which has one tag. -/
def oneEntry (id source tag : String) : Catalog := ⟨Index.ofList [(id, ⟨source, [.plain tag]⟩)]⟩

/-- Two sources and a catalog with the first of them. -/
def twoSources : Disk :=
  let files := Disk.put (Disk.put {} ["a"] (.file "fur".toUTF8)) ["b"] (.file "feather".toUTF8)
  files.put [catalogName] (.file (oneEntry "1" "a" "x").toText.toUTF8)

/-- The disk with the second source in the catalog, and a directory where its link is to stand. -/
def hinder (disk : Disk) : Disk :=
  let listed := disk.put [catalogName] (.file (oneEntry "2" "b" "y").toText.toUTF8)
  (listed.put ["y"] .directory).put ["y", "2"] .directory

theorem home_hinder (disk : Disk) : (hinder disk).home = disk.home := rfl

theorem node?_hinder {place : Place} (other : place ≠ [catalogName])
    (apart : place.head? ≠ some "y") : (hinder disk).node? place = disk.node? place := by
  have directory : place ≠ ["y"] := by
    rintro rfl
    exact apart rfl
  have inner : place ≠ ["y", "2"] := by
    rintro rfl
    exact apart rfl
  rw [hinder, Disk.node?_put (List.cons_ne_nil _ _), if_neg inner,
    Disk.node?_put (List.cons_ne_nil _ _), if_neg directory,
    Disk.node?_put (List.cons_ne_nil _ _), if_neg other]

/-- The catalog and the sources synced. -/
def firstSync : Report := (Command.sync {}).run defaultCatalogPath 7 twoSources

/-- The second catalog synced with a directory in the way. -/
def secondSync : Report := (Command.sync {}).run defaultCatalogPath 8 (hinder firstSync.disk)

theorem secondSync_eq :
    firstSync.failure = none ∧ firstSync.disk.home = [] ∧ (hinder firstSync.disk).IsRooted ∧
      secondSync.failure = some (.disk .isDirectory) ∧
      (loadLockfile secondSync.disk (lockfileOf defaultCatalogPath)).toOption =
        some ⟨Index.ofList [("1", ⟨"a", digest "fur".toUTF8, [⟨["x"], none⟩]⟩)]⟩ ∧
      secondSync.disk.node? (secondSync.disk.home ++ [storeName, digest "fur".toUTF8]) = none := by
  decide +kernel

/-- If a link cannot be made, the contents that go have gone, and the lockfile still lists them. -/
theorem sync_loses_content :
    twoSources.IsRooted ∧ twoSources.node? (twoSources.home ++ [lockfileName]) = none ∧
      twoSources.node? (twoSources.home ++ [storeName]) = none ∧ firstSync.failure = none ∧
      IsOutside firstSync.disk (hinder firstSync.disk) ∧
      secondSync.failure = some (.disk .isDirectory) ∧
      ∃ lockfile, loadLockfile secondSync.disk (lockfileOf defaultCatalogPath) = .ok lockfile ∧
        ¬lockfile.IsBacked secondSync.disk := by
  obtain ⟨done, home, rooted, failed, loaded, gone⟩ := secondSync_eq
  have outside : IsOutside firstSync.disk (hinder firstSync.disk) := by
    refine ⟨rooted, home_hinder _, ?_, fun names => ?_⟩
    · rw [home]
      exact node?_hinder (by decide) (by decide)
    · rw [home]
      exact node?_hinder (by simp [storeName, catalogName]) (by simp [storeName])
  refine ⟨by decide, by decide, by decide, done, outside, failed, ?_⟩
  cases found : loadLockfile secondSync.disk (lockfileOf defaultCatalogPath) with
  | error failure =>
      rw [found] at loaded
      cases loaded
  | ok lockfile =>
      rw [found] at loaded
      cases loaded
      refine ⟨_, rfl, fun backed => ?_⟩
      obtain ⟨content, there, -⟩ := backed "1" _ rfl
      cases gone.symm.trans there

end Database
end TagStore
