import TagStore.Proofs.Catalog.Format
import TagStore.Proofs.Database.Ways
import TagStore.Proofs.Links.Mirror
import TagStore.Proofs.Lockfile.Records

/-!
# What a successful edit leaves

A working directory holds a database if the catalog and the lockfile are saved in it, the lockfile
has a record of each file of the catalog, and the store and the links mirror the lockfile.  An edit
that succeeds leaves the working directory holding the edited database.
-/

namespace TagStore

open Disk (storeName)
open Location (IsName ofParts)

/-! ## Saving a file -/

theorem Disk.isName_of_isStored {disk : Disk} {hash : String} (stored : disk.IsStored hash) :
    IsName hash := by
  obtain ⟨content, -, rfl⟩ := stored
  exact isName_digest content

section Saving

variable {disk after : Disk} {lockfile : Lockfile} {name : String} {content : ByteArray}

theorem Disk.Mirrors.not_link (mirrors : disk.Mirrors lockfile) (tidy : lockfile.IsTidy)
    (name target : String) : disk.node? (disk.home ++ [name]) ≠ some (.link target) := by
  intro link
  obtain ⟨hash, links, -⟩ := (mirrors.linked _ _).mp link
  exact (tidy.outside links).2 rfl

/-- A file beside the store and the links leaves them as they are. -/
theorem Disk.Mirrors.put (mirrors : disk.Mirrors lockfile) (tidy : lockfile.IsTidy)
    (other : name ≠ storeName) (file : disk.node? (disk.home ++ [name]) ≠ some .directory) :
    (disk.put (disk.home ++ [name]) (.file content)).Mirrors lockfile := by
  have nonempty : [name] ≠ [] := List.cons_ne_nil _ _
  have inside : disk.home ++ [name] ≠ [] := place_ne_nil nonempty
  have outside : [name].head? ≠ some storeName := fun same => other (Option.some.inj same)
  have above : disk.node? (disk.home ++ [name].dropLast) = some .directory := by
    rw [List.dropLast_singleton, List.append_nil]
    exact mirrors.sound.home_directory
  refine ⟨mirrors.sound.put nonempty above file (.inl outside), ?_, ?_, ?_⟩
  · intro hash stored there
    rw [home_put, node?_put inside, if_neg (by simp)] at there
    exact mirrors.addressed hash stored there
  · intro hash
    have apart : disk.home ++ [storeName, hash] ≠ disk.home ++ [name] := by simp
    simp only [IsStored, home_put, node?_put inside, if_neg apart]
    exact mirrors.stored hash
  · intro names target
    rw [home_put, node?_put inside]
    split
    · rename_i same
      rw [List.append_cancel_left same]
      constructor
      · intro link
        cases link
      · rintro ⟨hash, links, -⟩
        exact absurd rfl (tidy.outside links).2
    · exact mirrors.linked names target

/-- Saving a file beside the store and the links changes nothing else. -/
theorem Disk.Mirrors.write (mirrors : disk.Mirrors lockfile) (tidy : lockfile.IsTidy)
    (isName : IsFileName name) (other : name ≠ storeName)
    (done : Disk.write (ofParts [".", name]) content disk = .ok () after) :
    after.Mirrors lockfile ∧ after.home = disk.home ∧
      ∀ place, after.node? place =
        if place = disk.home ++ [name] then some (.file content) else disk.node? place := by
  have nonempty : [name] ≠ [] := List.cons_ne_nil _ _
  have final := mirrors.not_link tidy name
  obtain ⟨rfl, file, -⟩ :=
    write_ok mirrors.sound (leads_name name) nonempty isName.areNames final done
  exact ⟨mirrors.put tidy other file, rfl, node?_put (place_ne_nil nonempty) _⟩

end Saving

/-! ## Databases on disks -/

namespace Database

open Command.Invocation (defaultCatalogPath)

/-- The working directory has a catalog, a lockfile of it, and all that the lockfile calls for. -/
structure Holds (disk : Disk) (catalog : Catalog) (lockfile : Lockfile) : Prop
    extends disk.Mirrors lockfile where
  catalogSaved : disk.Saves catalogName catalog.toText (catalog = {})
  lockfileSaved : disk.Saves lockfileName lockfile.toText (lockfile = {})
  tidy : catalog.IsTidy
  records : lockfile.Records catalog

variable {disk after : Disk} {catalog next : Catalog} {lockfile made : Lockfile}

theorem Holds.isTidy (holds : Holds disk catalog lockfile) : lockfile.IsTidy :=
  holds.records.isTidy holds.tidy fun hash has =>
    Disk.isName_of_isStored ((holds.stored hash).mpr has)

theorem Holds.loadCatalog_eq (holds : Holds disk catalog lockfile) :
    loadCatalog disk defaultCatalogPath = .ok catalog := by
  rw [defaultCatalogPath_eq]
  exact load_of_saves isFileName_catalogName holds.catalogSaved catalog.ofBytes_toText

theorem Holds.loadLockfile_eq (holds : Holds disk catalog lockfile) :
    loadLockfile disk (lockfileOf defaultCatalogPath) = .ok lockfile := by
  rw [lockfileOf_default]
  exact load_of_saves isFileName_lockfileName holds.lockfileSaved
    (lockfile.ofBytes_toText holds.isTidy.isPlain)

/-- The database that is held is the one that is opened. -/
theorem Holds.open_eq (holds : Holds disk catalog lockfile) :
    Database.open disk defaultCatalogPath = .ok ⟨catalog, lockfile, defaultCatalogPath⟩ := by
  rw [Database.open, holds.loadCatalog_eq, holds.loadLockfile_eq]
  rfl

/-- Saving a catalog and its lockfile where everything else has been made. -/
theorem holds_of_writes (mirrors : disk.Mirrors made) (tidy : next.IsTidy)
    (madeTidy : made.IsTidy) (records : made.Records next)
    (done : (do
      Disk.write defaultCatalogPath next.toText.toUTF8
      Disk.write (lockfileOf defaultCatalogPath) made.toText.toUTF8 : DiskStep DiskError Unit)
        disk = .ok () after) :
    Holds after next made ∧ after.home = disk.home := by
  obtain ⟨_, between, first, second⟩ := Disk.bind_ok done
  rw [defaultCatalogPath_eq] at first
  rw [lockfileOf_default] at second
  obtain ⟨mirrors, home, one⟩ := mirrors.write madeTidy isFileName_catalogName (by decide) first
  obtain ⟨mirrors, sameHome, two⟩ :=
    mirrors.write madeTidy isFileName_lockfileName (by decide) second
  rw [home] at sameHome two
  have apart : disk.home ++ [catalogName] ≠ disk.home ++ [lockfileName] := by
    intro same
    exact absurd (List.append_cancel_left same) (by decide)
  refine ⟨⟨mirrors, .inl ?_, .inl ?_, tidy, records⟩, sameHome⟩
  · rw [sameHome, two, if_neg apart, one, if_pos rfl]
  · rw [sameHome, two, if_pos rfl]

/-! ## Edits -/

theorem output_default : Database.output ⟨catalog, lockfile, defaultCatalogPath⟩ = "." :=
  outputOf_default

/-- Carrying out the changes to the lockfile of another catalog, once the contents are stored, and
saving both leaves the database with the other catalog. -/
theorem Holds.commit {stocked : Disk} {hashes : String → String}
    (holds : Holds disk catalog lockfile) (tidy : next.IsTidy)
    (digests : Lockfile.Digests lockfile hashes next.files.entries)
    (locks : made.locks = next.files.map fun id file => Lockfile.lockOf file (hashes id))
    (stocks : Lockfile.Stocks disk (Lockfile.Learns lockfile hashes next.files.entries) stocked)
    (done : Database.commit ⟨catalog, lockfile, defaultCatalogPath⟩
      (LinkTable.changesBetween lockfile made) next made stocked = .ok () after) :
    Holds after next made ∧ after.home = disk.home := by
  have has (hash : String) := @Lockfile.has_iff_of_locks_eq made next hashes hash locks
  have records : made.Records next := ⟨hashes, locks⟩
  have madeTidy : made.IsTidy := by
    apply records.isTidy tidy
    intro hash called
    obtain ⟨entry, member, rfl⟩ := (has hash).mp called
    rcases digests.cases member with earlier | ⟨_, content, same⟩
    · exact Disk.isName_of_isStored ((holds.stored _).mpr earlier)
    · exact same ▸ isName_digest content
  obtain ⟨_, turned, carried, saved⟩ := Disk.bind_ok done
  rw [output_default] at carried
  have turns := Lockfile.turns_of_carryOut holds.isTidy madeTidy stocks.sound carried
  have mirrors : turned.Mirrors made := by
    refine Lockfile.mirrors_of_turns holds.toMirrors holds.isTidy madeTidy stocks ?_ ?_ turns
    · intro hash called
      obtain ⟨entry, member, rfl⟩ := (has hash).mp called
      exact (digests.cases member).imp_right And.left
    · rintro _ ⟨entry, member, _, rfl⟩
      exact (has _).mpr ⟨entry, member, rfl⟩
  obtain ⟨held, home⟩ := holds_of_writes mirrors tidy madeTidy records saved
  exact ⟨held, home.trans (turns.home.trans stocks.home)⟩

/-- An edit that succeeds leaves the edited database, or everything as it was in a dry run. -/
theorem Holds.edit (holds : Holds disk catalog lockfile) (mode : EditMode) (tidy : next.IsTidy)
    {report : Report}
    (edited : Database.edit ⟨catalog, lockfile, defaultCatalogPath⟩ mode next disk = report)
    (done : report.failure = none) :
    if mode.dry then report.disk = disk
    else (∃ made, Holds report.disk next made) ∧ report.disk.home = disk.home := by
  have way := edit_way ⟨catalog, lockfile, defaultCatalogPath⟩ mode next disk
  rw [edited] at way
  cases way with
  | unmade => cases done
  | dry dry recorded =>
      rw [output_default] at recorded
      obtain ⟨_, _, _, stores⟩ := Lockfile.ofCatalog_ok recorded
      have stores := stores rfl holds.sound holds.addressed
      rw [Lockfile.Stores, if_pos rfl] at stores
      rw [if_pos dry]
      exact stores
  | committed wet recorded committed =>
      rw [output_default] at recorded
      obtain ⟨hashes, digests, locks, stores⟩ := Lockfile.ofCatalog_ok recorded
      have stores := stores rfl holds.sound holds.addressed
      rw [Lockfile.Stores, if_neg Bool.false_ne_true] at stores
      obtain ⟨held, home⟩ := holds.commit tidy digests locks stores committed
      rw [wet, if_neg Bool.false_ne_true]
      exact ⟨⟨_, held⟩, home⟩
  | uncommitted => cases done

end Database
end TagStore
