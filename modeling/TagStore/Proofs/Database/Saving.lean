import TagStore.Proofs.Catalog.Format
import TagStore.Proofs.Database.Files
import TagStore.Proofs.Disk.Route
import TagStore.Proofs.Lockfile.Reread

/-!
# What is saved is loaded

A catalog that has been saved is loaded as it was, wherever it has been saved.  A lockfile that has
been saved is loaded with its tags read back from their texts, so it is loaded as it was exactly if
no key of a mapping in the catalog has a colon.
-/

namespace TagStore
namespace Database

open Command.Invocation (defaultCatalogPath)

variable {disk stocked saved : Disk} {path : String} {catalog : Catalog} {lockfile : Lockfile}

theorem load_of_write {α : Type} {text : String} {value empty : α}
    {ofBytes : ByteArray → Except Json.Flaw α} (read : ofBytes text.toUTF8 = .ok value)
    (written : Disk.write path text.toUTF8 disk = .ok () saved) :
    load saved path empty ofBytes = .ok value := by
  rw [load, Disk.read_of_write written]
  simp only [read]
  rfl

theorem loadCatalog_of_write
    (written : Disk.write path catalog.toText.toUTF8 disk = .ok () saved) :
    loadCatalog saved path = .ok catalog :=
  load_of_write catalog.ofBytes_toText written

theorem loadLockfile_of_write
    (written : Disk.write path lockfile.toText.toUTF8 disk = .ok () saved) :
    loadLockfile saved path = .ok lockfile.reread :=
  load_of_write lockfile.ofBytes_toText_reread written

/-- A catalog is read back from its text.  So saving what has been read, reading that and saving it
again gives the same text.  On any disk, a catalog is loaded from where it has been saved, and
saving it there once more changes nothing. -/
theorem saved_catalog_is_loaded (catalog : Catalog) :
    Catalog.ofBytes catalog.toText.toUTF8 = .ok catalog ∧
      (∀ bytes, (do
        let loaded ← Catalog.ofBytes bytes
        let again ← Catalog.ofBytes loaded.toText.toUTF8
        pure again.toText) = (Catalog.ofBytes bytes).map Catalog.toText) ∧
      ∀ disk path saved, Disk.write path catalog.toText.toUTF8 disk = .ok () saved →
        loadCatalog saved path = .ok catalog ∧
          Disk.write path catalog.toText.toUTF8 saved = .ok () saved := by
  refine ⟨catalog.ofBytes_toText, fun bytes => ?_, fun disk path saved written => ?_⟩
  · cases Catalog.ofBytes bytes with
    | error flaw => rfl
    | ok loaded =>
        have again : Catalog.ofBytes loaded.toText.toUTF8 = .ok loaded := loaded.ofBytes_toText
        simp only [bind, Except.bind, again]
        rfl
  · exact ⟨loadCatalog_of_write written, Disk.write_again written⟩

theorem write_vacant (content : ByteArray) :
    ∃ saved, Disk.write defaultCatalogPath content {} = .ok () saved := by
  have free : Disk.node? {} [catalogName] = none := rfl
  rw [defaultCatalogPath_eq, Disk.write_name isFileName_catalogName (by simp [free])]
  exact ⟨_, if_neg (by simp [free])⟩

/-- A catalog with odd texts, without tags and with mappings that are empty or not. -/
def oddCatalog : Catalog :=
  ⟨Index.ofList [("", ⟨"", []⟩),
    ("\"\\\n\x00", ⟨"\x7f\t/", [.plain "", .mapping ∅, .plain ":",
      .mapping (Index.ofList [("", "\x1f"), ("k:\u2028", "\"")])]⟩)]⟩

/-- Whatever the texts of a catalog are, it is loaded from the working directory as it was saved. -/
theorem oddCatalog_is_loaded :
    ∃ saved, Disk.write defaultCatalogPath oddCatalog.toText.toUTF8 {} = .ok () saved ∧
      loadCatalog saved defaultCatalogPath = .ok oddCatalog := by
  obtain ⟨saved, written⟩ := write_vacant oddCatalog.toText.toUTF8
  exact ⟨saved, written, ((saved_catalog_is_loaded oddCatalog).2.2 _ _ _ written).1⟩

/-- The lockfile made for a catalog is loaded as it was saved, and the links of what is loaded are
those of what was saved, exactly if no key of a mapping in the catalog has a colon. -/
theorem saved_lockfile_is_loaded_iff {previous : Lockfile} {output : String} {dry : Bool}
    {saving : Disk}
    (made : Lockfile.ofCatalog catalog previous output dry disk = .ok lockfile stocked)
    (written : Disk.write path lockfile.toText.toUTF8 saving = .ok () saved) :
    ∃ loaded, loadLockfile saved path = .ok loaded ∧
      (loaded = lockfile ↔ catalog.IsColonFree) ∧
      (LinkTable.ofLockfile loaded = LinkTable.ofLockfile lockfile ↔ catalog.IsColonFree) := by
  obtain ⟨hashes, -, locks, -⟩ := Lockfile.ofCatalog_ok made
  have plain := Lockfile.isPlain_iff_isColonFree locks
  refine ⟨lockfile.reread, loadLockfile_of_write written, Lockfile.reread_eq_iff.trans plain, ?_⟩
  constructor
  · intro same
    exact Classical.byContradiction fun present =>
      Lockfile.links_ne_of_not_isColonFree locks present same
  · intro free
    rw [Lockfile.reread_eq_iff.mpr (plain.mpr free)]

/-- A catalog with one file, which has a value under a key. -/
def keyedCatalog (key : String) : Catalog :=
  ⟨Index.ofList [("1", ⟨"photo", [.mapping (Index.ofList [(key, "c")])]⟩)]⟩

/-- A lockfile in which the source of the file has a digest. -/
def photoLocked : Lockfile := ⟨Index.ofList [("1", ⟨"photo", "h", []⟩)]⟩

/-- The lockfile of the catalog with one file. -/
def keyedLockfile (key : String) : Lockfile :=
  ⟨Index.ofList [("1", ⟨"photo", "h", [Tag.ofPath key (some "c")]⟩)]⟩

/-- Without a colon in its key, the tag of the file is loaded as it was saved. -/
theorem keyedLockfile_is_loaded :
    ∃ saved,
      Lockfile.ofCatalog (keyedCatalog "a.b") photoLocked "." false {} =
        .ok (keyedLockfile "a.b") {} ∧
      Disk.write defaultCatalogPath (keyedLockfile "a.b").toText.toUTF8 {} = .ok () saved ∧
      loadLockfile saved defaultCatalogPath = .ok (keyedLockfile "a.b") := by
  have made : Lockfile.ofCatalog (keyedCatalog "a.b") photoLocked "." false {} =
      .ok (keyedLockfile "a.b") {} := rfl
  obtain ⟨saved, written⟩ := write_vacant (keyedLockfile "a.b").toText.toUTF8
  obtain ⟨loaded, found, same, -⟩ := saved_lockfile_is_loaded_iff made written
  have free : (keyedCatalog "a.b").IsColonFree := by
    rw [Catalog.isColonFree_iff]
    decide +kernel
  exact ⟨saved, made, written, same.mpr free ▸ found⟩

/-- With a colon in its key, the tag of the file is lost and so is its link. -/
theorem keyedLockfile_is_lost :
    ∃ saved loaded,
      Lockfile.ofCatalog (keyedCatalog "a:b") photoLocked "." false {} =
        .ok (keyedLockfile "a:b") {} ∧
      Disk.write defaultCatalogPath (keyedLockfile "a:b").toText.toUTF8 {} = .ok () saved ∧
      loadLockfile saved defaultCatalogPath = .ok loaded ∧ loaded ≠ keyedLockfile "a:b" ∧
      LinkTable.ofLockfile loaded ≠ LinkTable.ofLockfile (keyedLockfile "a:b") := by
  obtain ⟨saved, written⟩ := write_vacant (keyedLockfile "a:b").toText.toUTF8
  refine ⟨saved, _, rfl, written, loadLockfile_of_write written, ?_, ?_⟩
  · decide +kernel
  · decide +kernel

end Database
end TagStore
