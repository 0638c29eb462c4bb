import TagStore.Proofs.Database.Apart
import TagStore.Proofs.Database.Early
import TagStore.Proofs.Query.Grammar

/-!
# Searching and removing

A search lists the files that a query matches, and a removal keeps those that it does not match.  So
a removal that succeeds leaves the files that a search has not listed, as they were.  After it the
query matches nothing: a search lists nothing, and another removal leaves the saved catalog as it
is.
-/

namespace TagStore

open Disk (storeName)

/-! ## Catalogs -/

namespace Catalog

/-- A file is removed exactly if it is found, and stays as it is otherwise. -/
theorem get?_remove (catalog : Catalog) (query : Query) (id : String) :
    (catalog.remove query).files.get? id =
      if (catalog.search query).contains id then none else catalog.files.get? id := by
  rw [remove, search, Index.contains, Index.get?_filter, Index.get?_filter]
  cases catalog.files.get? id with
  | none => rfl
  | some file => cases matched : query.isMatch file.tags <;> simp [Option.filter, matched]

theorem search_remove (catalog : Catalog) (query : Query) :
    (catalog.remove query).search query = ∅ := by
  apply Index.ext_entries
  have none : (∅ : Index String FileRecord).entries = [] := rfl
  simp [none, remove, search, Index.filter, List.filter_filter]

theorem remove_remove (catalog : Catalog) (query : Query) :
    (catalog.remove query).remove query = catalog.remove query := by
  have same : (catalog.remove query).files.filter (fun _ file => !query.isMatch file.tags) =
      (catalog.remove query).files := by
    apply Index.ext_entries
    simp [remove, Index.filter, List.filter_filter]
  exact congrArg Catalog.mk same

theorem HasFreeLinks.remove {reserved : String → Prop} {catalog : Catalog}
    (links : catalog.HasFreeLinks reserved) (query : Query) :
    (catalog.remove query).HasFreeLinks reserved := by
  intro id file found
  rw [Catalog.remove, Index.get?_filter, Option.filter_eq_some_iff] at found
  exact links id file found.1

end Catalog

/-- The lockfile that a catalog has is made again from what is read back of it. -/
theorem Lockfile.Records.ofCatalog_reread {lockfile : Lockfile} {catalog : Catalog}
    (records : lockfile.Records catalog) (output : String) (dry : Bool) (disk : Disk) :
    ofCatalog catalog lockfile.reread output dry disk = .ok lockfile disk := by
  obtain ⟨hashes, locks⟩ := records
  have known (id : String) (file : FileRecord) (found : catalog.files.get? id = some file) :
      lockfile.reread.knownHash? id file = some (hashes id) := by
    refine knownHash?_eq_some_iff.mpr ⟨(lockOf file (hashes id)).reread, ?_, rfl, rfl⟩
    rw [get?_reread, locks, Index.get?_map, found]
    rfl
  rw [ofCatalog_of_hashOf fun id file found => hashOf_known (known id file found) output dry disk,
    ← locks]

namespace Database

variable {disk stocked after : Disk} {database : Database} {catalog next : Catalog}
  {lockfile made : Lockfile} {mode : EditMode} {catalogPath : String} {place : Place}
  {arguments : List String} {query : Query} {clock : Nat} {met : String → Prop}

/-! ## Edits -/

/-- An edit that succeeds and is not dry has committed. -/
theorem edit_commits (wet : mode.dry = false)
    (done : (database.edit mode next disk).failure = none) :
    ∃ made stocked,
      Lockfile.ofCatalog next database.lockfile database.output false disk = .ok made stocked ∧
      database.commit (database.changesTo made) next made stocked =
        .ok () (database.edit mode next disk).disk := by
  have way := edit_way database mode next disk
  generalize database.edit mode next disk = report at way done ⊢
  cases way with
  | unmade => cases done
  | dry dry => cases wet.symm.trans dry
  | committed _ recorded committed => exact ⟨_, _, recorded, committed⟩
  | uncommitted => cases done

/-- What an edit leaves once the lockfile has been made. -/
theorem disk_edit
    (recorded : Lockfile.ofCatalog next database.lockfile database.output mode.dry disk =
      .ok made stocked) :
    (database.edit mode next disk).disk = if mode.dry then stocked
      else (database.commit (database.changesTo made) next made).left stocked := by
  simp only [edit, recorded]
  cases mode.dry with
  | true => rfl
  | false =>
      simp only [Bool.false_eq_true, if_false, DiskStep.left]
      cases database.commit (database.changesTo made) next made stocked with
      | ok _ after => rfl
      | error error after => rfl

/-- An edit that changes nothing in a catalog that is saved leaves it as it is, even if it fails. -/
theorem lookForFile_edit (records : made.Records next)
    (saved : disk.lookForFile catalogPath = .ok ⟨place, some (.file next.toText.toUTF8)⟩)
    (keeps : mode.dry = false →
      Carries (KeepsCatalog catalogPath) ⟨next, made.reread, catalogPath⟩ next disk) :
    ((Database.mk next made.reread catalogPath).edit mode next disk).disk.lookForFile catalogPath =
      .ok ⟨place, some (.file next.toText.toUTF8)⟩ := by
  have recorded (dry : Bool) := records.ofCatalog_reread (outputOf catalogPath) dry disk
  rw [disk_edit (recorded mode.dry)]
  cases dry : mode.dry with
  | true => exact saved
  | false => exact (keeps dry made disk (recorded false)).left_commit saved

/-! ## Commands -/

theorem run_remove (parsed : Query.ofArguments arguments = .ok query) (database : Database)
    (mode : EditMode) (clock : Nat) (disk : Disk) :
    database.run (.remove mode arguments) clock disk =
      database.edit mode (database.catalog.remove query) disk := by
  simp only [run, parsed]

theorem run_search (parsed : Query.ofArguments arguments = .ok query) (database : Database)
    (clock : Nat) (disk : Disk) :
    database.run (.search arguments) clock disk = database.list query disk := by
  simp only [run, parsed]

theorem open_of_load (one : loadCatalog disk catalogPath = .ok catalog)
    (two : loadLockfile disk (lockfileOf catalogPath) = .ok lockfile) :
    Database.open disk catalogPath = .ok ⟨catalog, lockfile, catalogPath⟩ := by
  rw [Database.open, one, two]
  rfl

theorem loadCatalog_of_lookForFile
    (saved : disk.lookForFile catalogPath = .ok ⟨place, some (.file catalog.toText.toUTF8)⟩) :
    loadCatalog disk catalogPath = .ok catalog := by
  have read : Catalog.ofBytes catalog.toText.toUTF8 = .ok catalog := catalog.ofBytes_toText
  rw [loadCatalog, load, Disk.read_of_lookForFile saved]
  simp only [read]
  rfl

/-- An edit that succeeds leaves the catalog saved, and a lockfile that has a record of each of its
files once its tags are read back. -/
theorem edit_saves (wet : mode.dry = false)
    (apart : database.Carries (fun _ turned =>
      turned.LeadApart database.catalogPath (lockfileOf database.catalogPath)) next disk)
    (done : (database.edit mode next disk).failure = none) :
    let after := (database.edit mode next disk).disk
    ∃ (made : Lockfile) (place : Place), made.Records next ∧
      after.lookForFile database.catalogPath = .ok ⟨place, some (.file next.toText.toUTF8)⟩ ∧
      Database.open after database.catalogPath = .ok ⟨next, made.reread, database.catalogPath⟩ := by
  intro after
  obtain ⟨made, stocked, recorded, committed⟩ := edit_commits wet done
  obtain ⟨hashes, -, locks, -⟩ := Lockfile.ofCatalog_ok recorded
  obtain ⟨⟨place, saved⟩, loaded⟩ := commit_saves (apart made stocked recorded) committed
  exact ⟨made, place, ⟨hashes, locks⟩, saved,
    open_of_load (loadCatalog_of_lookForFile saved) loaded⟩

/-- A removal that succeeds leaves the files that a search did not list before it, as they were.
Afterwards the search lists nothing, and another removal, whether it succeeds or fails, leaves the
saved catalog as it is. -/
theorem remove_agrees_with_search (parsed : Query.ofArguments arguments = .ok query)
    (wet : mode.dry = false)
    (apart : (Command.remove mode arguments).LeadsApart catalogPath clock disk)
    (done : ((Command.remove mode arguments).run catalogPath clock disk).failure = none) :
    let after := ((Command.remove mode arguments).run catalogPath clock disk).disk
    ∃ catalog rest, loadCatalog disk catalogPath = .ok catalog ∧
      loadCatalog after catalogPath = .ok rest ∧
      (∀ now, (Command.search arguments).run catalogPath now disk =
        { printed := (Catalog.filesToJson (catalog.search query)).pretty ++ "\n", disk }) ∧
      (∀ id, rest.files.get? id =
        if (catalog.search query).contains id then none else catalog.files.get? id) ∧
      (∀ now, (Command.search arguments).run catalogPath now after =
        { printed := "\x7b\x7d\n", disk := after }) ∧
      ∀ again now, (Command.remove again arguments).KeepsApart catalogPath now after →
        ((Command.remove again arguments).run catalogPath now after).disk.read catalogPath =
          after.read catalogPath := by
  intro after
  cases opened : Database.open disk catalogPath with
  | error failure =>
      rw [Command.run, opened] at done
      cases done
  | ok database =>
      obtain ⟨catalog, lockfile, rfl, loaded, -⟩ := open_eq_ok opened
      have same : (Command.remove mode arguments).run catalogPath clock disk =
          (Database.mk catalog lockfile catalogPath).edit mode (catalog.remove query) disk := by
        rw [run_of_open opened, run_remove parsed]
      have edited (mode : EditMode) (clock : Nat) (catalog : Catalog) :
          (Command.remove mode arguments).edited? catalog clock =
            some (mode, catalog.remove query) := by
        simp only [Command.edited?, parsed]
        rfl
      rw [same] at done
      obtain ⟨made, place, records, saved, reopened⟩ :=
        edit_saves wet (apart _ _ _ opened (edited mode clock catalog) wet) done
      rw [← same] at saved reopened
      refine ⟨catalog, catalog.remove query, loaded, loadCatalog_of_lookForFile saved,
        fun now => ?_, catalog.get?_remove query, fun now => ?_, fun again now keeps => ?_⟩
      · rw [run_of_open opened, run_search parsed]
        rfl
      · rw [run_of_open reopened, run_search parsed, list, catalog.search_remove query]
        rfl
      · rw [run_of_open reopened, run_remove parsed, catalog.remove_remove query,
          Disk.read_of_lookForFile saved]
        refine Disk.read_of_lookForFile (lookForFile_edit records saved fun wet => ?_)
        have kept := keeps _ _ _ reopened (edited again now _) wet
        rwa [catalog.remove_remove query] at kept

/-- Wherever the catalog is, a removal keeps a database apart that is aside. -/
theorem IsAside.keepsApart_remove (opened : Database.open disk catalogPath = .ok database)
    (aside : database.IsAside met database.catalog disk) (mode : EditMode)
    (arguments : List String) (clock : Nat) :
    (Command.remove mode arguments).KeepsApart catalogPath clock disk := by
  intro found _ next again edited _
  cases opened.symm.trans again
  obtain ⟨catalog, lockfile, rfl, -, -⟩ := open_eq_ok opened
  obtain ⟨query, -, same⟩ := Option.map_eq_some_iff.mp edited
  cases same
  exact IsAside.carries { aside with links := aside.links.remove query }

/-! ## An album -/

/-- The path of a catalog in a directory of its own. -/
def albumPath : String := "pets/album.json"

/-- The names on the way to the album and its lockfile. -/
def albumNames : List String := ["pets", "album.json", lockfileName]

/-- One photo, tagged twice. -/
def album : Catalog :=
  ⟨Index.ofList [("1", ⟨"photo", [.plain "cat"]⟩), ("2", ⟨"photo", [.plain "dog"]⟩)]⟩

/-- The album without cats. -/
def dogs : Catalog := ⟨Index.ofList [("2", ⟨"photo", [.plain "dog"]⟩)]⟩

/-- The lockfile of the album when it had a cat only. -/
def catLock : Lockfile :=
  let hash := digest "fur".toUTF8
  ⟨Index.ofList [("1", ⟨"photo", hash, [⟨["cat"], none⟩]⟩), ("2", ⟨"photo", hash, []⟩)]⟩

/-- The lockfile of the album without cats. -/
def dogLock : Lockfile :=
  ⟨Index.ofList [("2", ⟨"photo", digest "fur".toUTF8, [⟨["dog"], none⟩]⟩)]⟩

/-- A link to the photo in the store. -/
def photoLink : Node := .link ("/pets/" ++ Lockfile.storedAt (digest "fur".toUTF8))

/-- The album with the photo in the store and the link of the cat. -/
def albumDisk : Disk :=
  let files : List (Place × Node) := [
    (["photo"], .file "fur".toUTF8),
    (["pets"], .directory),
    (["pets", "album.json"], .file album.toText.toUTF8),
    (["pets", lockfileName], .file catLock.toText.toUTF8),
    (["pets", storeName], .directory),
    (["pets", storeName, digest "fur".toUTF8], .file "fur".toUTF8),
    (["pets", "cat"], .directory),
    (["pets", "cat", "1"], photoLink)]
  { nodes := Index.ofList files }

/-- What an album and its disk have to be so that links stay away from it. -/
def IsAlbum (catalog : Catalog) (lockfile : Lockfile) (disk : Disk) : Prop :=
  (loadCatalog disk albumPath).toOption = some catalog ∧
    (loadLockfile disk (lockfileOf albumPath)).toOption = some lockfile ∧
    disk.IsRooted ∧ disk.node? (disk.home ++ ["pets"]) = some .directory ∧
    disk.IsPlainStore (disk.home ++ ["pets"] ++ [storeName]) ∧ disk.IsUnlinked albumNames ∧
    disk.LeadApart albumPath (lockfileOf albumPath) ∧
    (∀ entry ∈ lockfile.locks.entries, entry.2.hash = digest "fur".toUTF8 ∧
      linkSegment entry.1 ∉ albumNames) ∧
    ∀ entry ∈ catalog.files.entries, ∀ tag ∈ entry.2.tags, ∀ name ∈ linkNames entry.1 tag,
      name ∉ albumNames

instance (catalog : Catalog) (lockfile : Lockfile) (disk : Disk) :
    Decidable (IsAlbum catalog lockfile disk) := inferInstanceAs (Decidable (_ ∧ _))

theorem isAlbum_start : IsAlbum album catLock albumDisk := by
  decide +kernel

/-- A query for the files with the tag of a cat. -/
def catQuery : Query := [.test ⟨.required, ["cat"], none⟩]

/-- Remove the cats. -/
def removeCats : Command := .remove {} ["+cat"]

/-- What comes of removing the cats from the album. -/
def catless : Report := (Database.mk album catLock albumPath).edit {} dogs albumDisk

theorem catless_eq : catless.failure = none ∧ IsAlbum dogs dogLock catless.disk ∧
    catless.disk.node? ["pets", "cat", "1"] = none ∧
    catless.disk.node? ["pets", "dog", "2"] = some photoLink := by
  decide +kernel

theorem ofArguments_cat : Query.ofArguments ["+cat"] = .ok catQuery := by
  have path : Query.WritesPath "cat".toList ["cat"] :=
    .word ⟨by decide, List.all_eq_true.mp (by decide)⟩
  have letters : "+cat".toList = Query.Kind.required.sign :: "cat".toList := by decide
  have writes : Query.Writes "+cat".toList catQuery := by
    rw [letters, ← List.append_nil (_ :: _)]
    exact .test (.path path) .nil
  have alone : " ".intercalate (["+cat"].map Query.requote) = "+cat" := by decide
  rw [Query.ofArguments, alone, Query.ofArgument, Query.parse_eq_ok_iff.mpr writes]
  rfl

theorem ok_of_toOption {ε α : Type} {result : Except ε α} {value : α}
    (found : result.toOption = some value) : result = .ok value := by
  cases result with
  | error => cases found
  | ok => exact congrArg _ (Option.some.inj found)

section Album

variable (isAlbum : IsAlbum catalog lockfile disk)

include isAlbum

theorem IsAlbum.loaded : loadCatalog disk albumPath = .ok catalog ∧
    loadLockfile disk (lockfileOf albumPath) = .ok lockfile := by
  obtain ⟨catalogLoaded, lockfileLoaded, -⟩ := isAlbum
  exact ⟨ok_of_toOption catalogLoaded, ok_of_toOption lockfileLoaded⟩

theorem IsAlbum.opened : Database.open disk albumPath = .ok ⟨catalog, lockfile, albumPath⟩ :=
  open_of_load isAlbum.loaded.1 isAlbum.loaded.2

theorem IsAlbum.isAside :
    IsAside (· ∈ albumNames) ⟨catalog, lockfile, albumPath⟩ catalog disk := by
  obtain ⟨-, -, rooted, directory, plain, unlinked, apart, locks, links⟩ := isAlbum
  have output : outputOf albumPath = "pets" := by decide
  have catalogNames : Location.names albumPath ⊆ albumNames := by decide
  have lockfileNames : Location.names (lockfileOf albumPath) ⊆ albumNames := by decide
  have outside : ∀ name ∈ albumNames, name ≠ storeName ∧ name.length ≠ 64 := by decide
  have reaches := Disk.reaches_name (by decide) (by decide) directory
  rw [← output] at reaches
  have along {path : String} (names : Location.names path ⊆ albumNames) (name : String)
      (meets : disk.Meets path name) : name ∈ albumNames :=
    names (meets.mem_names (unlinked.mono names))
  have digests (content : ByteArray) : digest content ∉ albumNames := fun listed =>
    (outside _ listed).2 (length_digest content)
  refine ⟨⟨rooted, reaches.hasPlainStore plain, _, _, reaches⟩, apart, along catalogNames,
    along lockfileNames, fun listed => (outside _ listed).1 rfl, digests, fun id lock found => ?_,
    fun id lock found _ => ?_, fun id file found => ?_⟩
  · rw [(locks _ (Index.get?_eq_some_iff.mp found)).1]
    exact ⟨(isName_digest _).slash_free, digests _⟩
  · exact (locks _ (Index.get?_eq_some_iff.mp found)).2
  · exact links _ (Index.get?_eq_some_iff.mp found)

end Album

/-- Removing the cats from the album leaves the dog, whose link it makes, also when it is done
again. -/
theorem remove_cats :
    Query.ofArguments ["+cat"] = .ok catQuery ∧
      removeCats.LeadsApart albumPath 7 albumDisk ∧
      removeCats.run albumPath 7 albumDisk = catless ∧ catless.failure = none ∧
      catless.disk.node? ["pets", "cat", "1"] = none ∧
      catless.disk.node? ["pets", "dog", "2"] = some photoLink ∧
      removeCats.KeepsApart albumPath 8 catless.disk ∧
      (album.search catQuery).keys = ["1"] ∧
      loadCatalog catless.disk albumPath = .ok dogs ∧
      ((Command.search ["+cat"]).run albumPath 9 catless.disk).printed = "\x7b\x7d\n" ∧
      (removeCats.run albumPath 8 catless.disk).disk.read albumPath =
        catless.disk.read albumPath := by
  have ran : removeCats.run albumPath 7 albumDisk = catless := by
    have removed : album.remove catQuery = dogs := by decide
    rw [run_of_open isAlbum_start.opened, removeCats, run_remove ofArguments_cat, removed, catless]
  obtain ⟨done, isAlbum, cat, dog⟩ := catless_eq
  have apart : removeCats.LeadsApart albumPath 7 albumDisk :=
    (isAlbum_start.isAside.keepsApart_remove isAlbum_start.opened {} ["+cat"] 7).leadsApart
  have keeps : removeCats.KeepsApart albumPath 8 catless.disk :=
    isAlbum.isAside.keepsApart_remove isAlbum.opened {} ["+cat"] 8
  obtain ⟨_, _, -, -, -, -, none, same⟩ :=
    remove_agrees_with_search ofArguments_cat rfl apart (ran ▸ done)
  rw [← removeCats, ran] at none same
  exact ⟨ofArguments_cat, apart, ran, done, cat, dog, keeps, rfl, isAlbum.loaded.1,
    congrArg Report.printed (none 9), same {} 8 keeps⟩

end Database
end TagStore
