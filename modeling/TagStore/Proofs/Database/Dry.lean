import TagStore.Proofs.Database.Mirror
import TagStore.Proofs.Lockfile.Dry
import TagStore.Proofs.Lockfile.Keep

/-!
# Dry runs

A dry run of a command changes nothing.  If it succeeds, it prints what the command prints when it
is carried out, unless that fails while it puts a content into the store.  Sources are read between
contents being stored, so what is stored must not make a difference to what is read: either the
output directory is there, and storing only adds to the disk, or there is no catalog yet, and no
more than one source is read.
-/

namespace TagStore

/-- The same command, with or without changing anything. -/
def Command.withDry (dry : Bool) : Command → Command
  | add mode source edits => add { mode with dry } source edits
  | remove mode query => remove { mode with dry } query
  | tag mode query edits => tag { mode with dry } query edits
  | search query => search query
  | sync mode => sync { mode with dry }

variable {disk now after : Disk}

/-! ## Reading and storing sources -/

namespace Lockfile

variable {previous lockfile : Lockfile} {output : String}

/-- A step that fails because a content cannot be put into the store. -/
def FailsKeeping (output : String) (failure : Failure) (after : Disk) : Prop :=
  ∃ error content before, failure = .disk error ∧
    keep output (digest content) content before = .error error after

/-- What has been read in a dry run is stored, or storing it fails. -/
theorem hashOf_wet {id hash : String} {file : FileRecord}
    (reads : ∀ path content, disk.read path = .ok content → now.read path = .ok content)
    (done : hashOf previous output true id file disk = .ok hash after) :
    hashOf previous output false id file now = .ok hash now ∨
      (∃ content stocked, keep output (digest content) content now = .ok () stocked ∧
        hashOf previous output false id file now = .ok hash stocked) ∨
      ∃ failure stocked, hashOf previous output false id file now = .error failure stocked ∧
        FailsKeeping output failure stocked := by
  cases known : previous.knownHash? id file with
  | some kept =>
      rw [hashOf_known known] at done ⊢
      cases done
      exact .inl rfl
  | none =>
      rw [hashOf_unknown known] at done ⊢
      have dryWay := store_way output true file.source disk
      rw [done] at dryWay
      cases dryWay with
      | kept wet => cases wet
      | @dry content _ read =>
          obtain ⟨path, isLocal, held⟩ := readSource_eq_ok_iff.mp read
          have again : readSource now file.source = .ok content :=
            readSource_eq_ok_iff.mpr ⟨path, isLocal, reads path content held⟩
          have way := store_way output false file.source now
          generalize store output false file.source now = result at way ⊢
          cases way with
          | unread unread => cases again.symm.trans unread
          | dry dry => cases dry
          | kept _ read kept =>
              cases again.symm.trans read
              exact .inr (.inl ⟨_, _, kept, rfl⟩)
          | unkept _ _ failed => exact .inr (.inr ⟨_, _, rfl, _, _, _, rfl, failed⟩)

/-- An output directory that is there on a disk where nothing stands outside of directories. -/
def IsReady (disk : Disk) (output : String) : Prop :=
  disk.IsRooted ∧ ∃ limit there, disk.Reaches output limit there

theorem IsReady.keep (ready : IsReady disk output) {content : ByteArray}
    (done : keep output (digest content) content disk = .ok () after) :
    disk.Adds after ∧ IsReady after output := by
  obtain ⟨rooted, limit, there, reaches⟩ := ready
  obtain ⟨adds, rooted⟩ := keep_adds rooted reaches (isName_digest content) done
  exact ⟨adds, rooted, limit, there, reaches.of_adds adds⟩

/-- What is recorded in a dry run is recorded when contents are stored, unless storing one fails.
Contents may be stored between two reads if the output directory is there. -/
theorem recordAll_wet {files : List (String × FileRecord)} {start : Lockfile}
    (reads : ∀ path content, disk.read path = .ok content → now.read path = .ok content)
    (ready : files.length ≤ 1 ∨ IsReady now output)
    (done : recordAll previous output true files start disk = .ok lockfile after) :
    (∃ stocked, recordAll previous output false files start now = .ok lockfile stocked) ∨
      ∃ failure stocked, recordAll previous output false files start now = .error failure stocked ∧
        FailsKeeping output failure stocked := by
  induction files generalizing start now with
  | nil =>
      cases done
      exact .inl ⟨now, rfl⟩
  | cons entry rest induction =>
      obtain ⟨hash, between, found, later⟩ := Disk.bind_ok done
      obtain rfl : between = disk := (hashOf_dry previous output _ _).ok found
      rw [recordAll]
      simp only [bind, EStateM.bind]
      rcases hashOf_wet reads found with
        known | ⟨content, stocked, kept, stored⟩ | ⟨failure, stocked, failed, keeping⟩
      · rw [known]
        exact induction reads (ready.imp_left Nat.le_of_succ_le) later
      · rw [stored]
        simp only
        rcases ready with short | ready
        · -- There is nothing else to read.
          obtain rfl : rest = [] := List.eq_nil_of_length_eq_zero (by simpa using short)
          cases later
          exact .inl ⟨stocked, rfl⟩
        · obtain ⟨adds, ready⟩ := ready.keep kept
          exact induction (fun path content read => adds.read_eq_ok (reads path content read))
            (.inr ready) later
      · rw [failed]
        exact .inr ⟨failure, stocked, rfl, keeping⟩

end Lockfile

/-! ## Output directories -/

namespace Disk

/-- The output directory of a file that can be read is there. -/
theorem reaches_outputOf {path : String} {content : ByteArray}
    (read : disk.read path = .ok content) :
    ∃ limit there, disk.Reaches (Database.outputOf path) limit there := by
  rw [Database.outputOf]
  split
  · exact ⟨_, _, reaches_dot disk⟩
  · exact ⟨_, _, reaches_dot disk⟩
  · rename_i directory written found
    obtain ⟨place, look⟩ := read_eq_ok_iff.mp read
    obtain ⟨-, arrives⟩ := find_eq_ok_iff.mp look
    have named : directory ≠ "" := fun same => written same
    obtain ⟨later, names, single⟩ := Location.namesOfEntry_of_parent? found named
    rw [Location.names, names, List.append_assoc, base,
      Location.isAbsolute_of_parent? found named, ← base] at arrives
    have further := List.append_ne_nil_of_left_ne_nil single.ne_nil
    obtain ⟨limit, there, passes⟩ := arrives.exists_passes (further _)
    exact ⟨limit, there, named, passes⟩

end Disk

namespace Database

open Command.Invocation (defaultCatalogPath)
open Lockfile (FailsKeeping IsReady)

variable {database : Database} {next : Catalog} {catalogPath : String}

/-- The catalog that has been loaded is empty, or its output directory is there. -/
theorem open_ready (rooted : disk.IsRooted)
    (opened : Database.open disk catalogPath = .ok database) :
    database.output = outputOf catalogPath ∧
      (database.catalog = {} ∨ IsReady disk database.output) := by
  obtain ⟨catalog, lockfile, rfl, loaded, -⟩ := open_eq_ok opened
  refine ⟨rfl, ?_⟩
  cases held : disk.read catalogPath with
  | ok bytes => exact .inr ⟨rooted, Disk.reaches_outputOf held⟩
  | error error =>
      simp only [loadCatalog, load, held] at loaded
      cases error with
      | notFound =>
          cases loaded
          exact .inl rfl
      | «exists» | notDirectory | isDirectory | tooManyLinks | nameTooLong | brokenName =>
          cases loaded

/-! ## Commands -/

/-- A run that fails as it makes the lockfile, because a content cannot be put into the store, and
prints nothing. -/
structure FailsStoring (output : String) (disk : Disk) (report : Report) : Prop where
  printed : report.printed = ""
  stores : ∃ catalog previous failure, report.failure = some failure ∧
    Lockfile.ofCatalog catalog previous output false disk = .error failure report.disk ∧
    FailsKeeping output failure report.disk

/-- A run that changes nothing and, if it succeeds, prints what another one prints, unless that
fails while it stores contents. -/
structure Foretells (output : String) (disk : Disk) (dry wet : Report) : Prop where
  unchanged : dry.disk = disk
  printed : dry.failure = none → FailsStoring output disk wet ∨ wet.printed = dry.printed

theorem foretells_self (output : String) (failure : Option Failure) (printed : String) :
    Foretells output disk ⟨failure, printed, disk⟩ ⟨failure, printed, disk⟩ :=
  ⟨rfl, fun _ => .inr rfl⟩

theorem edit_foretells (mode : EditMode)
    (ready : next.files.entries.length ≤ 1 ∨ IsReady disk database.output) :
    Foretells database.output disk (database.edit { mode with dry := true } next disk)
      (database.edit { mode with dry := false } next disk) := by
  have same := Lockfile.recordAll_dry database.lockfile database.output next.files.entries {}
  simp only [edit, Lockfile.ofCatalog, if_true, Bool.false_eq_true, if_false]
  cases recorded : Lockfile.recordAll database.lockfile database.output true next.files.entries {}
      disk with
  | error failure after =>
      exact ⟨same.error recorded, fun done => absurd done (Option.some_ne_none _)⟩
  | ok lockfile after =>
      refine ⟨same.ok recorded, fun _ => ?_⟩
      rcases Lockfile.recordAll_wet (fun _ _ => id) ready recorded with
        ⟨stocked, stored⟩ | ⟨failure, stocked, failed, keeping⟩
      · rw [stored]
        simp only
        cases database.commit (database.changesTo lockfile) next lockfile stocked with
        | ok _ after => exact .inr rfl
        | error error after => exact .inr rfl
      · rw [failed]
        exact .inl ⟨rfl, next, database.lockfile, failure, rfl, failed, keeping⟩

theorem run_foretells (command : Command) (clock : Nat)
    (ready : database.catalog = {} ∨ IsReady disk database.output) :
    Foretells database.output disk (database.run (command.withDry true) clock disk)
      (database.run (command.withDry false) clock disk) := by
  have ready (next : Catalog) (short : database.catalog = {} → next.files.entries.length ≤ 1) :=
    ready.imp_left short
  cases command with
  | add mode source edits =>
      refine edit_foretells mode (ready _ fun empty => ?_)
      rw [empty]
      exact Nat.le_refl 1
  | remove mode query =>
      simp only [Command.withDry, run]
      cases Query.ofArguments query with
      | error invalid => exact foretells_self ..
      | ok query =>
          refine edit_foretells mode (ready _ fun empty => ?_)
          rw [empty]
          exact Nat.zero_le 1
  | tag mode query edits =>
      simp only [Command.withDry, run]
      cases Query.ofArgument query with
      | error invalid => exact foretells_self ..
      | ok query =>
          refine edit_foretells mode (ready _ fun empty => ?_)
          rw [empty]
          exact Nat.zero_le 1
  | search query =>
      simp only [Command.withDry, run]
      cases Query.ofArguments query with
      | error invalid => exact foretells_self ..
      | ok query => exact foretells_self ..
  | sync mode =>
      refine edit_foretells mode (ready _ fun empty => ?_)
      rw [empty]
      exact Nat.zero_le 1

/-- A dry run of a command changes nothing, whether it succeeds or fails.  If it succeeds, the
command prints the same when it is carried out, or it fails while it stores contents and prints
nothing. -/
theorem dry_run_foretells (rooted : disk.IsRooted) (command : Command) (catalogPath : String)
    (clock : Nat) :
    Foretells (outputOf catalogPath) disk ((command.withDry true).run catalogPath clock disk)
      ((command.withDry false).run catalogPath clock disk) := by
  rw [Command.run, Command.run]
  cases opened : Database.open disk catalogPath with
  | error failure => exact foretells_self ..
  | ok database =>
      obtain ⟨output, ready⟩ := open_ready rooted opened
      rw [← output]
      exact run_foretells command clock ready

/-- Adding the photo prints what its dry run has printed. -/
theorem dry_run_addPhoto :
    let dry := (addPhoto.withDry true).run defaultCatalogPath 7 oneFile
    let wet := addPhoto.run defaultCatalogPath 7 oneFile
    oneFile.IsRooted ∧ dry.failure = none ∧ wet.failure = none ∧ dry.disk = oneFile ∧
      wet.printed = dry.printed := by
  intro dry wet
  have rooted : oneFile.IsRooted := isFresh_oneFile.toIsRooted
  have done : dry.failure = none := by decide +kernel
  have foretells : Foretells "." oneFile dry wet :=
    outputOf_default ▸ dry_run_foretells rooted addPhoto defaultCatalogPath 7
  refine ⟨rooted, done, failure_addPhoto, foretells.unchanged, ?_⟩
  rcases foretells.printed done with ⟨-, -, -, failure, failed, -⟩ | same
  · rw [failure_addPhoto] at failed
    cases failed
  · exact same

end Database
end TagStore
