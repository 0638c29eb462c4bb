import TagStore.Command.Basic
import TagStore.Database.Basic
import TagStore.Links.CarryOut
import TagStore.Lockfile.Store

/-!
# Running commands

A command opens the catalog and the lockfile beside it, makes the catalog and the lockfile anew,
prints the changes to the output directory, carries them out, and saves both files.  A command that
fails keeps what it has done until then.
-/

namespace TagStore

/-- What is printed of changes. -/
def EditMode.report (mode : EditMode) (changes : Changes Item) : String :=
  if mode.json then changes.toJson.compact ++ "\n"
  else if changes.isEmpty then "" else changes.toText ++ "\n"

/-- What came of a command. -/
structure Report where
  /-- Whether it failed, and why. -/
  failure : Option Failure := none
  /-- What it printed. -/
  printed : String := ""
  /-- The disk after it. -/
  disk : Disk
  deriving DecidableEq

namespace Database

/-- The changes from the links of the loaded lockfile to those of another. -/
def changesTo (database : Database) (next : Lockfile) : Changes Item :=
  (LinkTable.ofLockfile database.lockfile).changes (LinkTable.ofLockfile next)

/-- Carry out changes and save a catalog and its lockfile. -/
def commit (database : Database) (changes : Changes Item) (catalog : Catalog)
    (lockfile : Lockfile) : DiskStep DiskError Unit := do
  changes.carryOut database.output
  Disk.write database.catalogPath catalog.toText.toUTF8
  Disk.write (lockfileOf database.catalogPath) lockfile.toText.toUTF8

/-- Put another catalog in the place of the loaded one. -/
def edit (database : Database) (mode : EditMode) (catalog : Catalog) (disk : Disk) : Report :=
  match Lockfile.ofCatalog catalog database.lockfile database.output mode.dry disk with
  | .error failure disk => { failure := some failure, disk }
  | .ok lockfile disk =>
    let changes := database.changesTo lockfile
    let printed := mode.report changes
    if mode.dry then { printed, disk }
    else
      match database.commit changes catalog lockfile disk with
      | .ok _ disk => { printed, disk }
      | .error error disk => { failure := some (.disk error), printed, disk }

/-- Print the files that a query matches. -/
def list (database : Database) (query : Query) (disk : Disk) : Report :=
  { printed := (Catalog.filesToJson (database.catalog.search query)).pretty ++ "\n", disk }

/-- Run a command in a loaded database; `clock` is the time in milliseconds, from which a new file
gets its identifier. -/
def run (database : Database) (command : Command) (clock : Nat) (disk : Disk) : Report :=
  let catalog := database.catalog
  match command with
  | .add mode source edits =>
    let file := FileRecord.ofEdits source edits
    database.edit mode (catalog.add (catalog.freshId clock) file) disk
  | .remove mode query =>
    match Query.ofArguments query with
    | .ok query => database.edit mode (catalog.remove query) disk
    | .error invalid => { failure := some (.query invalid), disk }
  | .tag mode query edits =>
    match Query.ofArgument query with
    | .ok query => database.edit mode (catalog.retag query edits) disk
    | .error invalid => { failure := some (.query invalid), disk }
  | .search query =>
    match Query.ofArguments query with
    | .ok query => database.list query disk
    | .error invalid => { failure := some (.query invalid), disk }
  | .sync mode => database.edit mode catalog disk

end Database

/-- Run a command on the catalog at a path. -/
def Command.run (command : Command) (catalogPath : String) (clock : Nat) (disk : Disk) : Report :=
  match Database.open disk catalogPath with
  | .ok database => database.run command clock disk
  | .error failure => { failure := some failure, disk }

end TagStore
