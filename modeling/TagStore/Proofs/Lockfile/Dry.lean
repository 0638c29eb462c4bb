import TagStore.Proofs.Lockfile.Records
import TagStore.Proofs.Lockfile.Steps

/-!
# What making a lockfile reads

A dry run makes a lockfile and stores nothing.  It reads the sources of those files of which there
is no record with the same source, and no others.  So it succeeds exactly if these sources can be
read, and making the lockfile again reads nothing.
-/

namespace TagStore

/-- A source is a local path, and the file to which it leads has a content. -/
def Disk.Supplies (disk : Disk) (source : String) (content : ByteArray) : Prop :=
  ∃ path, Source.localPath source = .ok path ∧ disk.read path = .ok content

namespace Lockfile

variable {disk other after : Disk} {catalog : Catalog} {previous lockfile : Lockfile}
  {output id hash source : String} {file : FileRecord} {content : ByteArray}

/-- There is a record of a file with the source that it has. -/
def Knows (previous : Lockfile) (id : String) (file : FileRecord) : Prop :=
  ∃ lock, previous.locks.get? id = some lock ∧ lock.source = file.source

/-! ## One file -/

theorem readSource_eq_ok_iff :
    readSource disk source = .ok content ↔ disk.Supplies source content := by
  rw [readSource, Disk.Supplies]
  cases Source.localPath source with
  | error error => simp
  | ok path =>
      cases held : disk.read path with
      | error error => simp [Except.mapError, held]
      | ok held => simp [Except.mapError, held]

theorem knownHash?_eq_none_iff : previous.knownHash? id file = none ↔ ¬previous.Knows id file := by
  rw [Option.eq_none_iff_forall_ne_some, ← not_exists]
  simp [knownHash?_eq_some_iff, Knows]

theorem chains_same : Chains fun before after : Disk => after = before where
  refl := fun _ => rfl
  trans := fun first second => second.trans first

theorem hashOf_dry (previous : Lockfile) (output id : String) (file : FileRecord) :
    (hashOf previous output true id file).Within fun before after => after = before :=
  chains_same.hashOf (fun wet => absurd wet (by decide)) previous id file

/-- A dry run leaves the disk as it is, whether it succeeds or fails. -/
theorem recordAll_dry (previous : Lockfile) (output : String) (files : List (String × FileRecord))
    (start : Lockfile) :
    (recordAll previous output true files start).Within fun before after => after = before :=
  chains_same.recordAll (fun wet => absurd wet (by decide)) previous files start

/-- The digest of a file is the one in its record, if it has the same source, or else that of the
content of its source. -/
inductive Finds (previous : Lockfile) (disk : Disk) (id : String) (file : FileRecord) :
    String → Prop
  /-- The digest is known. -/
  | known {lock : Lock} : previous.locks.get? id = some lock → lock.source = file.source →
      Finds previous disk id file lock.hash
  /-- The content is read. -/
  | read {content : ByteArray} : ¬previous.Knows id file → disk.Supplies file.source content →
      Finds previous disk id file (digest content)

theorem hashOf_dry_eq_ok_iff :
    hashOf previous output true id file disk = .ok hash disk ↔
      previous.Finds disk id file hash := by
  constructor
  · intro done
    cases known : previous.knownHash? id file with
    | some kept =>
        rw [hashOf_known known] at done
        cases done
        obtain ⟨lock, found, same, rfl⟩ := knownHash?_eq_some_iff.mp known
        exact .known found same
    | none =>
        have way := store_way output true file.source disk
        rw [hashOf_unknown known] at done
        rw [done] at way
        cases way with
        | dry _ read => exact .read (knownHash?_eq_none_iff.mp known) (readSource_eq_ok_iff.mp read)
        | kept wet => cases wet
  · intro finds
    cases finds with
    | known found same =>
        exact hashOf_known (knownHash?_eq_some_iff.mpr ⟨_, found, same, rfl⟩) output true disk
    | read unknown supplies =>
        rw [hashOf_unknown (knownHash?_eq_none_iff.mpr unknown), store,
          readSource_eq_ok_iff.mpr supplies]
        rfl

/-- A digest is found exactly if it is known or the source can be read. -/
theorem exists_finds_iff :
    (∃ hash, previous.Finds disk id file hash) ↔
      (¬previous.Knows id file → ∃ content, disk.Supplies file.source content) := by
  constructor
  · rintro ⟨_, finds⟩ unknown
    cases finds with
    | @known lock found same => exact absurd ⟨lock, found, same⟩ unknown
    | @read content _ supplies => exact ⟨content, supplies⟩
  · intro supplied
    by_cases known : previous.Knows id file
    · obtain ⟨lock, found, same⟩ := known
      exact ⟨lock.hash, .known found same⟩
    · obtain ⟨content, supplies⟩ := supplied known
      exact ⟨digest content, .read known supplies⟩

/-- Nothing else is read of the disk. -/
theorem Finds.of_supplies (finds : previous.Finds disk id file hash)
    (supplies : ¬previous.Knows id file → ∀ content, disk.Supplies file.source content →
      other.Supplies file.source content) : previous.Finds other id file hash := by
  cases finds with
  | known found same => exact .known found same
  | read unknown read => exact .read unknown (supplies unknown _ read)

/-! ## All files -/

theorem exists_finds_of_recordAll {files : List (String × FileRecord)} {start : Lockfile}
    (done : recordAll previous output true files start disk = .ok lockfile after) :
    ∀ entry ∈ files, ∃ hash, previous.Finds disk entry.1 entry.2 hash := by
  induction files generalizing start with
  | nil => exact fun _ member => nomatch member
  | cons entry rest induction =>
      obtain ⟨hash, between, found, later⟩ := Disk.bind_ok done
      obtain rfl : between = disk := (hashOf_dry previous output _ _).ok found
      exact List.forall_mem_cons.mpr ⟨⟨hash, hashOf_dry_eq_ok_iff.mp found⟩, induction later⟩

/-- Digests that are found one by one are found together. -/
theorem exists_hashes (found : ∀ id file, catalog.files.get? id = some file →
      ∃ hash, previous.Finds disk id file hash) :
    ∃ hashes : String → String, ∀ id file, catalog.files.get? id = some file →
      previous.Finds disk id file (hashes id) := by
  have each (id : String) : ∃ hash, ∀ file, catalog.files.get? id = some file →
      previous.Finds disk id file hash := by
    cases there : catalog.files.get? id with
    | none => exact ⟨"", fun file absent => nomatch absent⟩
    | some file =>
        obtain ⟨hash, finds⟩ := found id file there
        exact ⟨hash, fun other same => Option.some.inj same ▸ finds⟩
  exact Classical.skolem.mp each

/-- A dry run makes the lockfile with the digests that are found, and it makes no other one. -/
theorem ofCatalog_dry_eq_ok_iff :
    ofCatalog catalog previous output true disk = .ok lockfile after ↔
      after = disk ∧ ∃ hashes : String → String,
        (∀ id file, catalog.files.get? id = some file →
          previous.Finds disk id file (hashes id)) ∧
        lockfile = ⟨catalog.files.map fun id file => lockOf file (hashes id)⟩ := by
  have made (hashes : String → String) (finds : ∀ id file, catalog.files.get? id = some file →
      previous.Finds disk id file (hashes id)) :
      ofCatalog catalog previous output true disk =
        .ok ⟨catalog.files.map fun id file => lockOf file (hashes id)⟩ disk :=
    ofCatalog_of_hashOf fun id file found => hashOf_dry_eq_ok_iff.mpr (finds id file found)
  constructor
  · intro done
    obtain ⟨hashes, finds⟩ := exists_hashes fun id file found =>
      exists_finds_of_recordAll done (id, file) (Index.get?_eq_some_iff.mp found)
    rw [made hashes finds] at done
    cases done
    exact ⟨rfl, hashes, finds, rfl⟩
  · rintro ⟨rfl, hashes, finds, rfl⟩
    exact made hashes finds

/-- A record is that of a file: it has its source and its tags, and the digest of the record before
it if this has the same source, or else that of the content of the source. -/
structure IsLockOf (previous : Lockfile) (disk : Disk) (id : String) (file : FileRecord)
    (lock : Lock) : Prop where
  source : lock.source = file.source
  tags : lock.tags = file.tags
  known : ∀ earlier, previous.locks.get? id = some earlier → earlier.source = file.source →
    lock.hash = earlier.hash
  new : ¬previous.Knows id file →
    ∃ content, disk.Supplies file.source content ∧ lock.hash = digest content

theorem Finds.isLockOf (finds : previous.Finds disk id file hash) :
    previous.IsLockOf disk id file (lockOf file hash) := by
  refine ⟨rfl, rfl, ?_, ?_⟩
  · intro earlier found same
    cases finds with
    | known there _ =>
        cases found.symm.trans there
        rfl
    | read unknown _ => exact absurd ⟨earlier, found, same⟩ unknown
  · intro unknown
    cases finds with
    | known found same => exact absurd ⟨_, found, same⟩ unknown
    | read _ supplies => exact ⟨_, supplies, rfl⟩

theorem exists_ofCatalog_dry_iff :
    (∃ lockfile after, ofCatalog catalog previous output true disk = .ok lockfile after) ↔
      ∀ id file, catalog.files.get? id = some file → ¬previous.Knows id file →
        ∃ content, disk.Supplies file.source content := by
  simp only [ofCatalog_dry_eq_ok_iff]
  constructor
  · rintro ⟨_, _, rfl, hashes, finds, -⟩ id file found
    exact exists_finds_iff.mp ⟨hashes id, finds id file found⟩
  · intro supplied
    obtain ⟨hashes, finds⟩ := exists_hashes fun id file found =>
      exists_finds_iff.mpr (supplied id file found)
    exact ⟨_, disk, rfl, hashes, finds, rfl⟩

theorem exists_lock_of_finds {hashes : String → String}
    (finds : ∀ id file, catalog.files.get? id = some file →
      previous.Finds disk id file (hashes id)) (found : catalog.files.get? id = some file) :
    ∃ lock, (catalog.files.map fun id file => lockOf file (hashes id)).get? id = some lock ∧
      previous.IsLockOf disk id file lock := by
  refine ⟨lockOf file (hashes id), ?_, (finds id file found).isLockOf⟩
  rw [Index.get?_map, found]
  rfl

/-- On two disks that supply the same new sources the same lockfile is made. -/
theorem ofCatalog_dry_of_supplies
    (same : ∀ id file, catalog.files.get? id = some file → ¬previous.Knows id file →
      ∀ content, disk.Supplies file.source content → other.Supplies file.source content)
    (done : ofCatalog catalog previous output true disk = .ok lockfile disk) :
    ofCatalog catalog previous output true other = .ok lockfile other := by
  obtain ⟨-, hashes, finds, made⟩ := ofCatalog_dry_eq_ok_iff.mp done
  refine ofCatalog_dry_eq_ok_iff.mpr ⟨rfl, hashes, fun id file found => ?_, made⟩
  exact (finds id file found).of_supplies (same id file found)

/-- A dry run succeeds exactly if the sources of all files can be read of which there is no record
with the same source.  The lockfile that it makes has a record of each file and no others.  The run
depends on nothing else that is on the disk, and with this lockfile the same one is made again,
whatever is on the disk. -/
theorem ofCatalog_dry_reads_new (catalog : Catalog) (previous : Lockfile) (output : String)
    (disk : Disk) :
    ((∃ lockfile after, ofCatalog catalog previous output true disk = .ok lockfile after) ↔
      ∀ id file, catalog.files.get? id = some file → ¬previous.Knows id file →
        ∃ content, disk.Supplies file.source content) ∧
    (∀ lockfile after, ofCatalog catalog previous output true disk = .ok lockfile after →
      after = disk ∧ lockfile.locks.keys = catalog.files.keys ∧
      (∀ id file, catalog.files.get? id = some file →
        ∃ lock, lockfile.locks.get? id = some lock ∧ previous.IsLockOf disk id file lock) ∧
      ∀ output dry other, ofCatalog catalog lockfile output dry other = .ok lockfile other) ∧
    ∀ other : Disk, (∀ id file, catalog.files.get? id = some file → ¬previous.Knows id file →
        ∀ content, disk.Supplies file.source content ↔ other.Supplies file.source content) →
      ∀ lockfile, ofCatalog catalog previous output true disk = .ok lockfile disk ↔
        ofCatalog catalog previous output true other = .ok lockfile other := by
  refine ⟨exists_ofCatalog_dry_iff, ?_, ?_⟩
  · intro lockfile after done
    obtain ⟨rfl, hashes, finds, rfl⟩ := ofCatalog_dry_eq_ok_iff.mp done
    refine ⟨rfl, Index.keys_map _ _, fun id file => exists_lock_of_finds finds, ?_⟩
    exact Records.ofCatalog_eq ⟨hashes, rfl⟩
  · intro other same lockfile
    constructor
    · exact ofCatalog_dry_of_supplies fun id file found unknown content =>
        (same id file found unknown content).mp
    · exact ofCatalog_dry_of_supplies fun id file found unknown content =>
        (same id file found unknown content).mpr

/-- A file whose source has gone keeps its digest, while that of another file is read. -/
theorem ofCatalog_dry_gone :
    let gone : FileRecord := ⟨"gone.png", [.ofTag ⟨["animal"], none⟩]⟩
    let new : FileRecord := ⟨"file://new.png", []⟩
    let catalog : Catalog := ⟨.ofList [("1", gone), ("2", new)]⟩
    let previous : Lockfile := ⟨.ofList [("1", ⟨"gone.png", "cafe", []⟩)]⟩
    let disk := Disk.put {} ["new.png"] (.file .empty)
    disk.read "gone.png" = .error .notFound ∧ previous.Knows "1" gone ∧
      disk.Supplies new.source .empty ∧
      ∃ lockfile lock, ofCatalog catalog previous "." true disk = .ok lockfile disk ∧
        lockfile.locks.get? "1" = some lock ∧ lock.hash = "cafe" ∧
        ofCatalog catalog lockfile "." false {} = .ok lockfile {} := by
  intro gone new catalog previous disk
  have earlier : previous.locks.get? "1" = some ⟨"gone.png", "cafe", []⟩ := by decide +kernel
  have known : previous.Knows "1" gone := ⟨_, earlier, rfl⟩
  have supplies : disk.Supplies new.source .empty := ⟨"new.png", by decide +kernel⟩
  have first : catalog.files.get? "1" = some gone := by decide +kernel
  obtain ⟨succeeds, makes, -⟩ := ofCatalog_dry_reads_new catalog previous "." disk
  obtain ⟨lockfile, after, done⟩ := succeeds.mpr <| by
    intro id file found unknown
    have entries : catalog.files.entries = [("1", gone), ("2", new)] := by decide +kernel
    rw [Index.get?_eq_some_iff, entries] at found
    simp only [List.mem_cons, Prod.mk.injEq, List.not_mem_nil, or_false] at found
    rcases found with ⟨rfl, rfl⟩ | ⟨rfl, rfl⟩
    · exact absurd known unknown
    · exact ⟨.empty, supplies⟩
  obtain ⟨rfl, -, records, again⟩ := makes lockfile after done
  obtain ⟨lock, found, isLockOf⟩ := records "1" gone first
  exact ⟨by decide +kernel, known, supplies, lockfile, lock, done, found,
    isLockOf.known _ earlier rfl, again "." false {}⟩

end Lockfile
end TagStore
