import TagStore.Proofs.Catalog.Tidy
import TagStore.Proofs.Command.Line
import TagStore.Proofs.Database.Files

/-!
# Ways of a command

A command has an invalid query and fails, lists files, or puts another catalog in the place of the
loaded one.  Putting it there fails because the new lockfile cannot be made, is dry, or commits, and
may fail as it does.
-/

namespace TagStore

namespace Command

/-- The mode of a command that edits, and the catalog that it puts in the place of another. -/
def edited? (catalog : Catalog) (clock : Nat) : Command → Option (EditMode × Catalog)
  | add mode source edits =>
    some (mode, catalog.add (catalog.freshId clock) (FileRecord.ofEdits source edits))
  | remove mode query =>
    (Query.ofArguments query).toOption.map fun query => (mode, catalog.remove query)
  | tag mode query edits =>
    (Query.ofArgument query).toOption.map fun query => (mode, catalog.retag query edits)
  | search _ => none
  | sync mode => some (mode, catalog)

/-- Check the query of a command, if it has one. -/
def checkQuery : Command → Except Query.Invalid Unit
  | remove _ query | search query => (Query.ofArguments query).map fun _ => ()
  | tag _ query _ => (Query.ofArgument query).map fun _ => ()
  | add _ _ _ | sync _ => .ok ()

end Command

variable {disk : Disk} {catalog next : Catalog} {command : Command} {clock : Nat}
  {mode : EditMode}

/-! ## Edited catalogs -/

namespace Catalog

/-- What editing a file keeps, a command keeps for a whole catalog, if a new file has it as well. -/
theorem HasAll.edited {kind : FileRecord → Prop} (all : catalog.HasAll kind)
    (kept : ∀ edit ∈ command.edits, ∀ file, kind file → kind (file.apply edit))
    (begun : ∀ own source edits, command = .add own source edits →
      kind (FileRecord.ofEdits source edits))
    (edited : command.edited? catalog clock = some (mode, next)) : next.HasAll kind := by
  cases command with
  | add own source edits =>
      cases edited
      exact all.add (catalog.isWord_freshId clock) (begun _ source edits rfl)
  | remove own query =>
      obtain ⟨query, -, same⟩ := Option.map_eq_some_iff.mp edited
      cases same
      exact all.remove query
  | tag own query edits =>
      obtain ⟨query, -, same⟩ := Option.map_eq_some_iff.mp edited
      cases same
      exact all.retag query fun _ => FileRecord.applyAll_of_apply kept
  | search query => cases edited
  | sync own =>
      cases edited
      exact all

theorem IsTidy.edited (tidy : catalog.IsTidy)
    (linkable : ∀ edit ∈ command.edits, edit.tag.IsLinkable)
    (edited : command.edited? catalog clock = some (mode, next)) : next.IsTidy := by
  refine HasAll.edited tidy (fun edit member _ file => file.apply (linkable edit member)) ?_ edited
  rintro own source edits rfl
  exact FileRecord.isTidy_ofEdits source linkable

theorem IsOrderly.edited (orderly : catalog.IsOrderly)
    (wellFormed : ∀ edit ∈ command.edits, edit.tag.IsWellFormed)
    (edited : command.edited? catalog clock = some (mode, next)) : next.IsOrderly := by
  refine HasAll.edited orderly (fun edit member _ file => file.apply (wellFormed edit member)) ?_
    edited
  rintro own source edits rfl
  exact FileRecord.isOrderly_ofEdits source wellFormed

/-- A command that starts from an empty catalog ends with no more than one file. -/
theorem length_edited_le_one (empty : catalog = {})
    (edited : command.edited? catalog clock = some (mode, next)) :
    next.files.entries.length ≤ 1 := by
  subst empty
  cases command with
  | add _ source edits =>
      cases edited
      exact Nat.le_refl 1
  | remove _ arguments =>
      obtain ⟨query, -, same⟩ := Option.map_eq_some_iff.mp edited
      cases same
      exact Nat.zero_le 1
  | tag _ argument edits =>
      obtain ⟨query, -, same⟩ := Option.map_eq_some_iff.mp edited
      cases same
      exact Nat.zero_le 1
  | search arguments => cases edited
  | sync _ =>
      cases edited
      exact Nat.zero_le 1

end Catalog

namespace Database

variable {database : Database}

/-! ## Commands -/

/-- A command has an invalid query and fails, or it edits the catalog, or it lists files. -/
theorem run_ways (database : Database) (command : Command) (clock : Nat) (disk : Disk) :
    (∃ invalid, command.checkQuery = .error invalid ∧
      command.edited? database.catalog clock = none ∧
      database.run command clock disk = { failure := some (.query invalid), disk }) ∨
    (∃ mode next, command.checkQuery = .ok () ∧
      command.edited? database.catalog clock = some (mode, next) ∧
      database.run command clock disk = database.edit mode next disk) ∨
    (∃ query, command.checkQuery = .ok () ∧
      command.edited? database.catalog clock = none ∧
      database.run command clock disk = database.list query disk) := by
  cases command with
  | add mode source edits => exact .inr (.inl ⟨_, _, rfl, rfl, rfl⟩)
  | remove mode arguments =>
      simp only [Command.checkQuery, Command.edited?, run]
      cases Query.ofArguments arguments with
      | error invalid => exact .inl ⟨invalid, rfl, rfl, rfl⟩
      | ok query => exact .inr (.inl ⟨_, _, rfl, rfl, rfl⟩)
  | tag mode argument edits =>
      simp only [Command.checkQuery, Command.edited?, run]
      cases Query.ofArgument argument with
      | error invalid => exact .inl ⟨invalid, rfl, rfl, rfl⟩
      | ok query => exact .inr (.inl ⟨_, _, rfl, rfl, rfl⟩)
  | search arguments =>
      simp only [Command.checkQuery, Command.edited?, run]
      cases Query.ofArguments arguments with
      | error invalid => exact .inl ⟨invalid, rfl, trivial, rfl⟩
      | ok query => exact .inr (.inr ⟨query, rfl, trivial, rfl⟩)
  | sync mode => exact .inr (.inl ⟨_, _, rfl, rfl, rfl⟩)

/-- A command edits the loaded database or leaves the disk as it is. -/
theorem run_cases (database : Database) (command : Command) (clock : Nat) (disk : Disk) :
    (∃ mode next, command.edited? database.catalog clock = some (mode, next) ∧
      database.run command clock disk = database.edit mode next disk) ∨
    (database.run command clock disk).disk = disk := by
  rcases run_ways database command clock disk with
    ⟨_, -, -, ran⟩ | ⟨mode, next, -, edited, ran⟩ | ⟨_, -, -, ran⟩
  · exact .inr (congrArg Report.disk ran)
  · exact .inl ⟨mode, next, edited, ran⟩
  · exact .inr (congrArg Report.disk ran)

theorem run_invalid {invalid : Query.Invalid} (refused : command.checkQuery = .error invalid)
    (database : Database) (clock : Nat) (disk : Disk) :
    database.run command clock disk = { failure := some (.query invalid), disk } := by
  rcases run_ways database command clock disk with
    ⟨other, same, -, ran⟩ | ⟨_, _, accepted, -⟩ | ⟨_, accepted, -⟩
  · cases refused.symm.trans same
    exact ran
  · cases refused.symm.trans accepted
  · cases refused.symm.trans accepted

theorem run_edited (edited : command.edited? database.catalog clock = some (mode, next))
    (disk : Disk) : database.run command clock disk = database.edit mode next disk := by
  rcases run_ways database command clock disk with
    ⟨_, -, none, -⟩ | ⟨_, _, -, same, ran⟩ | ⟨_, -, none, -⟩
  · cases edited.symm.trans none
  · cases edited.symm.trans same
    exact ran
  · cases edited.symm.trans none

/-! ## Edits -/

/-- What comes of an edit. -/
inductive EditWay (database : Database) (mode : EditMode) (next : Catalog) (disk : Disk) :
    Report → Prop
  /-- The new lockfile cannot be made. -/
  | unmade {failure : Failure} {after : Disk} :
      Lockfile.ofCatalog next database.lockfile database.output mode.dry disk =
        .error failure after →
      EditWay database mode next disk { failure := some failure, disk := after }
  /-- The edit is dry and ends with the lockfile. -/
  | dry {made : Lockfile} {stocked : Disk} : mode.dry = true →
      Lockfile.ofCatalog next database.lockfile database.output true disk = .ok made stocked →
      EditWay database mode next disk
        { printed := mode.report (database.changesTo made), disk := stocked }
  /-- The edit is committed. -/
  | committed {made : Lockfile} {stocked after : Disk} : mode.dry = false →
      Lockfile.ofCatalog next database.lockfile database.output false disk = .ok made stocked →
      database.commit (database.changesTo made) next made stocked = .ok () after →
      EditWay database mode next disk
        { printed := mode.report (database.changesTo made), disk := after }
  /-- Committing the edit fails. -/
  | uncommitted {made : Lockfile} {stocked after : Disk} {error : DiskError} : mode.dry = false →
      Lockfile.ofCatalog next database.lockfile database.output false disk = .ok made stocked →
      database.commit (database.changesTo made) next made stocked = .error error after →
      EditWay database mode next disk
        { failure := some (.disk error), printed := mode.report (database.changesTo made),
          disk := after }

theorem edit_way (database : Database) (mode : EditMode) (next : Catalog) (disk : Disk) :
    EditWay database mode next disk (database.edit mode next disk) := by
  rw [edit]
  cases recorded : Lockfile.ofCatalog next database.lockfile database.output mode.dry disk with
  | error failure after => exact .unmade recorded
  | ok made stocked =>
      cases dry : mode.dry with
      | true => exact .dry dry (dry ▸ recorded)
      | false =>
          rw [dry] at recorded
          simp only [Bool.false_eq_true, if_false]
          cases committed : database.commit (database.changesTo made) next made stocked with
          | ok _ after => exact .committed dry recorded committed
          | error error after => exact .uncommitted dry recorded committed

end Database
end TagStore
