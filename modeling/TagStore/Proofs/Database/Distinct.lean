import TagStore.Proofs.Catalog.Distinct
import TagStore.Proofs.Database.Intact
import TagStore.Proofs.Database.Settled

/-!
# No file gets a tag twice

Every command puts a catalog without repeated tags in the place of such a catalog, except that a new
file may be given a tag twice.  What is saved is what the next command loads, so along a run without
such additions no file in the catalog ever has a tag twice.
-/

namespace TagStore

open Command.Invocation (defaultCatalogPath)

/-- A command that does not add a tag twice to a new file. -/
def Command.AddsApart : Command → Prop
  | add _ _ edits => (Tag.Edit.added edits).Nodup
  | remove _ _ => True
  | tag _ _ _ => True
  | search _ => True
  | sync _ => True

variable {start disk : Disk} {catalog next : Catalog} {command : Command} {clock : Nat}
  {mode : EditMode}

namespace Catalog

/-- A command leaves a catalog without repeated tags exactly if it does not add a tag twice. -/
theorem IsDistinct.edited_iff (distinct : catalog.IsDistinct)
    (wellFormed : ∀ edit ∈ command.edits, edit.tag.IsWellFormed)
    (edited : command.edited? catalog clock = some (mode, next)) :
    next.IsDistinct ↔ command.AddsApart := by
  constructor
  · intro later
    cases command with
    | add own source edits =>
        cases edited
        exact (distinct.add_iff clock source wellFormed).mp later
    | remove | tag | search | sync => exact trivial
  · intro apart
    refine HasAll.edited distinct (fun edit member _ file => file.apply (wellFormed edit member)) ?_
      edited
    rintro own source edits rfl
    exact (FileRecord.isDistinct_ofEdits_iff source wellFormed).mpr apart

end Catalog

namespace Database

/-! ## Runs -/

/-- A disk without a catalog, perhaps with a lockfile that has been saved, where no link has one of
their names at the end of what it points at. -/
structure IsUncatalogued (disk : Disk) : Prop where
  links : disk.LinksAvoid reservedNames
  catalog : disk.node? (disk.home ++ [catalogName]) = none
  lockfile : IsText Lockfile.toText Lockfile.IsOrderly (disk.node? (disk.home ++ [lockfileName]))

/-- The disks to which commands lead, successful or not, whose edits have been read from texts and
which do not add a tag twice to a new file. -/
inductive RanApart (start : Disk) : Disk → Prop
  /-- No command leads to the disk at the start. -/
  | start : RanApart start start
  /-- A command leads on, even if it fails. -/
  | step {disk : Disk} (command : Command) (clock : Nat) : RanApart start disk →
      (∀ edit ∈ command.edits, Command.IsWritten edit) → command.AddsApart →
      RanApart start (command.run defaultCatalogPath clock disk).disk

/-- A command that does not add a tag twice leaves a catalog without repeated tags. -/
theorem HasCatalog.run (has : HasCatalog Catalog.IsDistinct disk) (kept : IsKept disk)
    (wellFormed : ∀ edit ∈ command.edits, edit.tag.IsWellFormed) (apart : command.AddsApart)
    (clock : Nat) :
    HasCatalog Catalog.IsDistinct (command.run defaultCatalogPath clock disk).disk := by
  rw [Command.run]
  cases opened : Database.open disk defaultCatalogPath with
  | error failure => exact has
  | ok database =>
      obtain ⟨catalog, lockfile, rfl, catalogLoaded, lockfileLoaded⟩ := open_eq_ok opened
      have distinct := has.loadCatalog_ok Catalog.hasAll_empty catalogLoaded
      have orderly := kept.loadCatalog_ok catalogLoaded
      rcases run_cases ⟨catalog, lockfile, defaultCatalogPath⟩ command clock disk with
        ⟨mode, next, edited, same⟩ | same
      · simp only [same]
        exact HasCatalog.edit rfl kept (kept.loadLockfile_ok lockfileLoaded)
          (orderly.edited wellFormed edited) mode has
          ((distinct.edited_iff wellFormed edited).mpr apart)
      · exact same.symm ▸ has

theorem RanApart.hasCatalog (ran : RanApart start disk) (uncatalogued : IsUncatalogued start) :
    IsKept disk ∧ HasCatalog Catalog.IsDistinct disk := by
  induction ran with
  | start =>
      have nothing {kind : Catalog → Prop} : HasCatalog kind start := by
        rw [HasCatalog, uncatalogued.catalog]
        rintro _ ⟨⟩
      exact ⟨⟨uncatalogued.links, nothing, uncatalogued.lockfile⟩, nothing⟩
  | step command clock _ written apart induction =>
      obtain ⟨kept, has⟩ := induction
      have wellFormed := isWellFormed_of_isWritten written
      exact ⟨(kept.run wellFormed clock).kept, has.run kept wellFormed apart clock⟩

/-- Begin without a catalog.  After every run of commands, successful or not, that do not add a tag
twice to a new file, no file of the catalog on the disk has a tag twice. -/
theorem nodup_tags_of_ranApart (uncatalogued : IsUncatalogued start) (ran : RanApart start disk)
    (loaded : loadCatalog disk defaultCatalogPath = .ok catalog) {id : String} {file : FileRecord}
    (found : catalog.files.get? id = some file) : file.tags.Nodup :=
  ((ran.hasCatalog uncatalogued).2.loadCatalog_ok Catalog.hasAll_empty loaded id file found).2

theorem isUncatalogued_oneFile : IsUncatalogued oneFile where
  links := isVacant_oneFile.links
  catalog := isVacant_oneFile.uncatalogued
  lockfile := by
    rw [isVacant_oneFile.unlocked]
    exact fun _ none => nomatch none

/-- Add the file with some tags. -/
def addWith (mode : EditMode) (tags : List Tag) : Command :=
  .add mode "photo" (tags.map fun tag => ⟨.add, tag⟩)

/-- The file has the two tags that were added, each once. -/
theorem nodup_tags_addWith :
    let command := addWith {} [⟨["cat"], none⟩, ⟨["fur"], some "red"⟩]
    let file : FileRecord := ⟨"photo", [.plain "cat", .mapping (Index.ofList [("fur", "red")])]⟩
    loadCatalog (command.run defaultCatalogPath 7 oneFile).disk defaultCatalogPath =
        .ok ⟨Index.ofList [("7", file)]⟩ ∧ file.tags.Nodup := by
  intro command file
  have ran : RanApart oneFile (command.run defaultCatalogPath 7 oneFile).disk := by
    refine .step command 7 .start ?_ ?_
    · exact List.forall_mem_cons.mpr
        ⟨⟨"+cat", by decide⟩, List.forall_mem_singleton.mpr ⟨"+fur:red", by decide⟩⟩
    · exact show List.Nodup _ by decide
  have loaded : loadCatalog (command.run defaultCatalogPath 7 oneFile).disk defaultCatalogPath =
      .ok ⟨Index.ofList [("7", file)]⟩ := by
    decide +kernel
  have found : Index.get? (Index.ofList [("7", file)]) "7" = some file := by decide +kernel
  exact ⟨loaded, nodup_tags_of_ranApart isUncatalogued_oneFile ran loaded found⟩

/-- A new file gets a tag as often as it is added, and its link is listed as often. -/
theorem addWith_repeats_tag :
    let twice (mode : EditMode) := addWith mode [⟨["cat"], none⟩, ⟨["cat"], none⟩]
    let stored := ".hash/" ++ digest "fur".toUTF8
    let saved := (twice {}).run defaultCatalogPath 7 oneFile
    IsUncatalogued oneFile ∧ (∀ edit ∈ (twice {}).edits, Command.IsWritten edit) ∧
      (saved.failure = none ∧ (loadCatalog saved.disk defaultCatalogPath).toOption =
        some ⟨Index.ofList [("7", ⟨"photo", [.plain "cat", .plain "cat"]⟩)]⟩) ∧
      ¬(FileRecord.tags ⟨"photo", [.plain "cat", .plain "cat"]⟩).Nodup ∧
      ((twice { dry := true }).run defaultCatalogPath 7 oneFile).printed =
        "+ " ++ stored ++ "\n+ " ++ stored ++ " -> cat/7\n+ " ++ stored ++ " -> cat/7\n" := by
  refine ⟨isUncatalogued_oneFile, ?_, ?_, ?_, ?_⟩
  · have written : Command.IsWritten ⟨.add, ⟨["cat"], none⟩⟩ := ⟨"+cat", by decide⟩
    exact List.forall_mem_cons.mpr ⟨written, List.forall_mem_singleton.mpr written⟩
  · decide +kernel
  · decide +kernel
  · decide +kernel

end Database
end TagStore
