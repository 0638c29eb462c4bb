import TagStore.Proofs.Database.Dry
import TagStore.Proofs.Database.Intact
import TagStore.Proofs.Lockfile.Fills

/-!
# Commands that fail early

A command can fail while it loads the catalog and the lockfile, because its query is invalid, while
it makes the new lockfile, or while it commits.  If it fails before it commits, it prints nothing
and leaves everything that was there as it is.  All that it can leave behind are contents that it
has stored before it came to a source that is unsupported or cannot be read.
-/

namespace TagStore

open Disk (Fills)
open Command.Invocation (defaultCatalogPath)

namespace Command

/-- A command fails before it commits. -/
inductive FailsEarly (command : Command) (catalogPath : String) (clock : Nat) (disk : Disk) :
    Failure → Prop
  /-- The catalog or the lockfile cannot be loaded. -/
  | loading {failure : Failure} : Database.open disk catalogPath = .error failure →
      FailsEarly command catalogPath clock disk failure
  /-- The query is invalid. -/
  | query {database : Database} {invalid : Query.Invalid} :
      Database.open disk catalogPath = .ok database → command.checkQuery = .error invalid →
      FailsEarly command catalogPath clock disk (.query invalid)
  /-- The new lockfile cannot be made. -/
  | recording {database : Database} {mode : EditMode} {next : Catalog} {failure : Failure}
      {after : Disk} : Database.open disk catalogPath = .ok database →
      command.edited? database.catalog clock = some (mode, next) →
      Lockfile.ofCatalog next database.lockfile database.output mode.dry disk =
        .error failure after →
      FailsEarly command catalogPath clock disk failure

end Command

namespace Database

variable {disk after : Disk} {database : Database} {command : Command} {clock : Nat}
  {mode : EditMode} {next : Catalog} {failure : Failure} {catalogPath : String}

/-- An edit fails with a new lockfile that cannot be made, or as it commits. -/
theorem edit_failure (failed : (database.edit mode next disk).failure = some failure) :
    (∃ after, Lockfile.ofCatalog next database.lockfile database.output mode.dry disk =
        .error failure after) ∨
      ∃ made stocked error after, mode.dry = false ∧
        Lockfile.ofCatalog next database.lockfile database.output false disk = .ok made stocked ∧
        database.commit (database.changesTo made) next made stocked = .error error after ∧
        failure = .disk error := by
  have way := edit_way database mode next disk
  generalize database.edit mode next disk = report at way failed
  cases way with
  | unmade recorded =>
      cases failed
      exact .inl ⟨_, recorded⟩
  | dry => cases failed
  | committed => cases failed
  | uncommitted wet recorded committed =>
      cases failed
      exact .inr ⟨_, _, _, _, wet, recorded, committed, rfl⟩

/-- A command that fails does so early or as it commits. -/
theorem failsEarly_or_commits
    (failed : (command.run catalogPath clock disk).failure = some failure) :
    command.FailsEarly catalogPath clock disk failure ∨
      ∃ database next made stocked error after, Database.open disk catalogPath = .ok database ∧
        Lockfile.ofCatalog next database.lockfile database.output false disk = .ok made stocked ∧
        database.commit (database.changesTo made) next made stocked = .error error after ∧
        failure = .disk error := by
  cases opened : Database.open disk catalogPath with
  | error other =>
      rw [Command.run, opened] at failed
      cases failed
      exact .inl (.loading opened)
  | ok database =>
      rw [run_of_open opened] at failed
      rcases run_ways database command clock disk with
        ⟨invalid, refused, -, ran⟩ | ⟨mode, next, -, edited, ran⟩ | ⟨query, -, -, ran⟩
      · rw [ran] at failed
        cases failed
        exact .inl (.query opened refused)
      · rw [ran] at failed
        rcases edit_failure failed with ⟨after, recorded⟩ | ⟨made, stocked, error, after, -, found⟩
        · exact .inl (.recording opened edited recorded)
        · exact .inr ⟨database, next, made, stocked, error, after, rfl, found⟩
      · rw [ran] at failed
        cases failed

/-! ## What is left -/

/-- A command that fails before it commits prints nothing and leaves every node as it is.  All
that it leaves beyond them are contents in the store, each under its digest, and directories on the
way to the store. -/
theorem fills_of_failsEarly (rooted : disk.IsRooted)
    (plain : disk.HasPlainStore (outputOf catalogPath))
    (fails : command.FailsEarly catalogPath clock disk failure) :
    (command.run catalogPath clock disk).failure = some failure ∧
      (command.run catalogPath clock disk).printed = "" ∧
      Fills (outputOf catalogPath) disk (command.run catalogPath clock disk).disk := by
  cases fails with
  | loading opened =>
      rw [Command.run, opened]
      exact ⟨rfl, rfl, .refl _ disk⟩
  | query opened refused =>
      rw [run_of_open opened, run_invalid refused]
      exact ⟨rfl, rfl, .refl _ disk⟩
  | recording opened edited recorded =>
      obtain ⟨output, ready⟩ := open_ready rooted opened
      rw [run_of_open opened, run_edited edited, edit, recorded]
      refine ⟨rfl, rfl, ?_⟩
      rw [output] at ready recorded
      refine Lockfile.recordAll_error_fills (outputOf_ne_empty catalogPath) ?_ recorded
      rcases ready with empty | ⟨rooted, there⟩
      · exact .inl (Catalog.length_edited_le_one empty edited)
      · exact .inr ⟨rooted, plain, there⟩

/-- A catalog with two sources, the second of which is not there. -/
def lacking : Disk :=
  let files : Index String FileRecord :=
    Index.ofList [("1", ⟨"a", [.plain "x"]⟩), ("2", ⟨"b", [.plain "y"]⟩)]
  let text := Catalog.toText ⟨files⟩
  (Disk.put {} ["a"] (.file "fur".toUTF8)).put [catalogName] (.file text.toUTF8)

/-- What comes of syncing. -/
def lackingSync : Report := (Command.sync {}).run defaultCatalogPath 7 lacking

theorem lackingSync_eq : lackingSync.failure = some (.unreadableSource "b" .notFound) ∧
    lackingSync.disk.node? [Disk.storeName, digest "fur".toUTF8] = some (.file "fur".toUTF8) := by
  decide +kernel

/-- Syncing fails at the second source and leaves the content of the first in the store. -/
theorem fills_sync_lacking :
    lacking.IsRooted ∧ lacking.HasPlainStore (outputOf defaultCatalogPath) ∧
      (Command.sync {}).FailsEarly defaultCatalogPath 7 lacking
        (.unreadableSource "b" .notFound) ∧
      lackingSync.failure = some (.unreadableSource "b" .notFound) ∧ lackingSync.printed = "" ∧
      Fills (outputOf defaultCatalogPath) lacking lackingSync.disk ∧
      lackingSync.disk.node? [Disk.storeName, digest "fur".toUTF8] =
        some (.file "fur".toUTF8) := by
  have rooted : lacking.IsRooted := by decide
  have plain : lacking.HasPlainStore (outputOf defaultCatalogPath) := by
    rw [outputOf_default]
    refine (Disk.reaches_dot lacking).hasPlainStore fun node there => ?_
    have free : lacking.node? (lacking.home ++ [Disk.storeName]) = none := by decide
    cases free.symm.trans there
  obtain ⟨failed, stored⟩ := lackingSync_eq
  have early : (Command.sync {}).FailsEarly defaultCatalogPath 7 lacking
      (.unreadableSource "b" .notFound) := by
    rcases failsEarly_or_commits failed with early | ⟨_, _, _, _, _, _, -, -, -, same⟩
    · exact early
    · cases same
  obtain ⟨-, printed, fills⟩ := fills_of_failsEarly rooted plain early
  exact ⟨rooted, plain, early, failed, printed, fills, stored⟩

end Database
end TagStore
