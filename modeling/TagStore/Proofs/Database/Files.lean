import TagStore.Command.Line
import TagStore.Database.Run
import TagStore.Proofs.Disk.Write

/-!
# The files of a database

By default the catalog and the lockfile stand in the working directory.  What has been saved in one
of them is what is loaded from it.
-/

namespace TagStore

open Location (IsName ofParts)

namespace Disk

variable {disk : Disk} {name : String}

/-- A name in the working directory that the system takes. -/
structure IsFileName (name : String) : Prop extends IsName name where
  short : ¬Location.nameLimit < name.utf8ByteSize
  passes : checkPath (ofParts [".", name]) = .ok ()

theorem leads_name (name : String) : disk.Leads (ofParts [".", name]) [name] :=
  .relative (List.cons_ne_nil _ _)

theorem IsFileName.areNames (isName : IsFileName name) : ∀ other ∈ [name], IsName other := by
  simpa using isName.toIsName

/-- A name in the working directory leads there, unless it is that of a link. -/
theorem find_name (isName : IsFileName name) (aim : Aim)
    (final : ∀ target, disk.node? (disk.home ++ [name]) ≠ some (.link target)) :
    disk.find aim (ofParts [".", name]) (Location.names (ofParts [".", name])) =
      .ok ⟨disk.home ++ [name], disk.node? (disk.home ++ [name])⟩ := by
  have limit : disk.walk aim linkLimit = disk.walkNames aim (disk.walk aim 39) := rfl
  have leads : disk.Leads (ofParts [".", name]) [name] := leads_name name
  rw [leads.names_eq (List.cons_ne_nil _ _) isName.areNames,
    namesOfEntry_relative isName.areNames, Disk.find, isName.passes,
    Location.isAbsolute_ofParts_cons (by decide) (by decide), limit,
    if_neg Bool.false_ne_true]
  refine (walkNames_idle (by decide) _ _).trans ?_
  have further : [] ≠ [""] := (List.cons_ne_nil _ _).symm
  cases there : disk.node? (disk.home ++ [name]) with
  | none => rw [walkNames_free isName.toIsName isName.short further there, if_pos rfl]
  | some node =>
      cases node with
      | directory => exact walkNames_directory isName.toIsName isName.short further there
      | file content => rw [walkNames_file isName.toIsName isName.short further there, if_pos rfl]
      | link target => exact absurd there (final target)

theorem look_name (isName : IsFileName name)
    (final : ∀ target, disk.node? (disk.home ++ [name]) ≠ some (.link target)) :
    disk.look (ofParts [".", name]) =
      .ok ⟨disk.home ++ [name], disk.node? (disk.home ++ [name])⟩ :=
  find_name isName .target final

/-- Writing to a name in the working directory puts a file there, unless there is a directory. -/
theorem write_name (isName : IsFileName name)
    (final : ∀ target, disk.node? (disk.home ++ [name]) ≠ some (.link target))
    (content : ByteArray) :
    write (ofParts [".", name]) content disk =
      if disk.node? (disk.home ++ [name]) = some .directory then .error .isDirectory disk
      else .ok () (disk.put (disk.home ++ [name]) (.file content)) := by
  rw [write, lookForFile, find_name isName .file final]
  rcases disk.node? (disk.home ++ [name]) with _ | _ | _ | _ <;> rfl

/-- A file in the working directory has a text, or there is no such file and nothing to save. -/
def Saves (disk : Disk) (name text : String) (nothing : Prop) : Prop :=
  disk.node? (disk.home ++ [name]) = some (.file text.toUTF8) ∨
    nothing ∧ disk.node? (disk.home ++ [name]) = none

end Disk

namespace Database

open Disk (IsFileName)

variable {disk : Disk} {name : String}

/-- What has been saved is loaded. -/
theorem load_of_saves {α : Type} {value empty : α} {text : String}
    {ofBytes : ByteArray → Except Json.Flaw α} (isName : IsFileName name)
    (saves : disk.Saves name text (value = empty)) (read : ofBytes text.toUTF8 = .ok value) :
    load disk (ofParts [".", name]) empty ofBytes = .ok value := by
  rcases saves with there | ⟨rfl, free⟩
  · have look := @Disk.look_name disk name isName (by simp [there])
    simp only [load, Disk.read, look, there, read]
    rfl
  · have look := @Disk.look_name disk name isName (by simp [free])
    simp only [load, Disk.read, look, free]

/-- What is loaded is what a file has, or something empty where there is no file. -/
theorem load_ok {α : Type} {value empty : α} {ofBytes : ByteArray → Except Json.Flaw α}
    (isName : IsFileName name)
    (final : ∀ target, disk.node? (disk.home ++ [name]) ≠ some (.link target))
    (loaded : load disk (ofParts [".", name]) empty ofBytes = .ok value) :
    value = empty ∨ ∃ content, disk.node? (disk.home ++ [name]) = some (.file content) ∧
      ofBytes content = .ok value := by
  have look := Disk.look_name isName final
  rcases there : disk.node? (disk.home ++ [name]) with _ | content | _ | _
  · simp only [load, Disk.read, look, there, Except.ok.injEq] at loaded
    exact .inl loaded.symm
  · simp only [load, Disk.read, look, there] at loaded
    refine .inr ⟨content, rfl, ?_⟩
    cases read : ofBytes content with
    | error flaw =>
        rw [read] at loaded
        cases loaded
    | ok other =>
        rw [read] at loaded
        cases loaded
        rfl
  · simp only [load, Disk.read, look, there, reduceCtorEq] at loaded
  · simp only [load, Disk.read, look, there, reduceCtorEq] at loaded

/-- A database that is opened has what is loaded from its files. -/
theorem open_eq_ok {catalogPath : String} {database : Database}
    (opened : Database.open disk catalogPath = .ok database) :
    ∃ catalog lockfile, database = ⟨catalog, lockfile, catalogPath⟩ ∧
      loadCatalog disk catalogPath = .ok catalog ∧
      loadLockfile disk (lockfileOf catalogPath) = .ok lockfile := by
  simp only [Database.open, bind, Except.bind] at opened
  split at opened
  · cases opened
  · rename_i catalog catalogLoaded
    split at opened
    · cases opened
    · rename_i lockfile lockfileLoaded
      cases opened
      exact ⟨catalog, lockfile, rfl, catalogLoaded, lockfileLoaded⟩

theorem run_of_open {command : Command} {catalogPath : String} {database : Database} {clock : Nat}
    (opened : Database.open disk catalogPath = .ok database) :
    command.run catalogPath clock disk = database.run command clock disk := by
  rw [Command.run, opened]

/-! ## Where the files are -/

theorem outputOf_ne_empty (catalogPath : String) : outputOf catalogPath ≠ "" := by
  rw [outputOf]
  split
  · decide
  · decide
  · rename_i directory named _
    exact fun same => named same

/-- The name of the catalog in its directory, by default. -/
def catalogName : String := "images.config.json"

theorem isFileName_catalogName : IsFileName catalogName where
  toIsName := by decide
  short := by decide
  passes := rfl

theorem isFileName_lockfileName : IsFileName lockfileName where
  toIsName := by decide
  short := by decide
  passes := rfl

theorem defaultCatalogPath_eq :
    Command.Invocation.defaultCatalogPath = ofParts [".", catalogName] := by decide

theorem outputOf_default : outputOf Command.Invocation.defaultCatalogPath = "." := by decide

theorem output_of_default {database : Database}
    (opened : database.catalogPath = Command.Invocation.defaultCatalogPath) :
    database.output = "." := by
  rw [Database.output, opened, outputOf_default]

theorem lockfileOf_default :
    lockfileOf Command.Invocation.defaultCatalogPath = ofParts [".", lockfileName] := by decide

end Database
end TagStore
