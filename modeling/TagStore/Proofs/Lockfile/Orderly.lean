import TagStore.Proofs.Catalog.Orderly
import TagStore.Proofs.Disk.Spares
import TagStore.Proofs.Links.Steps
import TagStore.Proofs.Links.Table
import TagStore.Proofs.Lockfile.Format
import TagStore.Proofs.Lockfile.Keep
import TagStore.Proofs.Lockfile.Steps

/-!
# Orderly lockfiles

A lockfile is orderly if its identifiers and digests are words and its tags are such as an edit may
name.  The lockfile of an orderly catalog is orderly.  What is stored for it and the links of it
stand under words, so making them spares every name that is not a word.
-/

namespace TagStore

open Location (Avoids IsName ofParts)

namespace Location

variable {reserved : List String} {path : String}

/-- A path whose last name is a word. -/
def EndsInWord (path : String) : Prop := ∃ word, Tag.Edit.isWord word ∧ EndsIn path word

theorem EndsInWord.join (ends : EndsInWord path) (directory : String) :
    EndsInWord (Location.join directory path) := by
  obtain ⟨word, isWord, last⟩ := ends
  exact ⟨word, isWord, last.join directory⟩

theorem EndsInWord.avoids_names (ends : EndsInWord path)
    (free : ∀ word, Tag.Edit.isWord word → word ∉ reserved) : Avoids reserved (names path) := by
  obtain ⟨word, isWord, last⟩ := ends
  exact last.avoids_names (isName_of_isWord isWord) (free word isWord)

theorem EndsInWord.avoids_namesOfEntry (ends : EndsInWord path)
    (free : ∀ word, Tag.Edit.isWord word → word ∉ reserved) :
    Avoids reserved (namesOfEntry path) := by
  obtain ⟨word, isWord, last⟩ := ends
  exact last.avoids_namesOfEntry (isName_of_isWord isWord) (free word isWord)

end Location

open Location (EndsIn EndsInWord)

theorem Lockfile.endsInWord_storedAt {hash : String} (word : Tag.Edit.isWord hash) :
    EndsInWord (storedAt hash) := ⟨hash, word, endsIn_storedAt hash⟩

theorem endsInWord_linkPath {id : String} (word : Tag.Edit.isWord id) (tag : Tag) :
    EndsInWord (linkPath id tag) := by
  refine ⟨id, word, ?_⟩
  have ends := endsIn_linkPath id tag
  rwa [linkSegment_of_isWord word] at ends

/-- A stored file, or a link from a word to a word. -/
def Item.EndsInWords : Item → Prop
  | .file _ => True
  | .link stored path => EndsInWord stored ∧ EndsInWord path

/-! ## Steps that spare names -/

section Words

variable {reserved : List String} (free : ∀ word, Tag.Edit.isWord word → word ∉ reserved)
include free

namespace Lockfile

theorem spares_keep (output : String) {hash : String} (word : Tag.Edit.isWord hash)
    (content : ByteArray) : (keep output hash content).Spares reserved := by
  intro disk links
  by_cases there : Disk.isThere (disk.look (Location.join output (storedAt hash)))
  · rw [DiskStep.left_ok (keep_there there)]
    exact .refl links
  · have avoids := ((endsInWord_storedAt word).join output).avoids_names free
    rw [DiskStep.left_congr (keep_absent there)]
    exact Disk.spares_place avoids content disk links

theorem spares_recordAll (previous : Lockfile) (output : String) (dry : Bool)
    (files : List (String × FileRecord)) (start : Lockfile) :
    (recordAll previous output dry files start).Spares reserved :=
  (DiskStep.chains_spares reserved).recordAll
    (fun _ content => spares_keep free output (isWord_digest content) content) previous files start

end Lockfile

namespace Changes

open DiskStep (chains_spares)

theorem spares_replaceLink {target path : String} (onward : EndsInWord target)
    (ends : EndsInWord path) : (replaceLink target path).Spares reserved :=
  (chains_spares reserved).replaceLink (Disk.spares_makeParents path) (Disk.spares_remove path)
    (Disk.spares_makeLink (onward.avoids_names free) (ends.avoids_namesOfEntry free))

theorem spares_carryOut {changes : Changes Item} (output : String)
    (named : ∀ item ∈ changes.created, item.EndsInWords) :
    (changes.carryOut output).Spares reserved := by
  intro disk
  refine (chains_spares reserved).carryOut (fun _ _ => Chains.removeItem (Disk.spares_remove _)) ?_
  rintro _ member
  refine (chains_spares reserved).createItem ?_
  rintro stored path rfl
  have named := named _ member
  exact spares_replaceLink free (named.1.join _) (named.2.join _)

end Changes

end Words

/-! ## Orderly lockfiles -/

/-- A record with a word for a digest and with tags that an edit may name. -/
structure Lock.IsOrderly (lock : Lock) : Prop where
  hash : Tag.Edit.isWord lock.hash
  tags : ∀ tag ∈ lock.tags, tag.IsWellFormed

namespace Lockfile

variable {previous made lockfile : Lockfile} {catalog : Catalog} {hashes : String → String}

/-- A lockfile of orderly records under words. -/
def IsOrderly (lockfile : Lockfile) : Prop :=
  ∀ id lock, lockfile.locks.get? id = some lock → Tag.Edit.isWord id ∧ lock.IsOrderly

theorem isOrderly_empty : ({} : Lockfile).IsOrderly := by
  intro id lock found
  cases found

theorem IsOrderly.isPlain (orderly : lockfile.IsOrderly) : lockfile.IsPlain := by
  intro entry member tag listed
  obtain ⟨-, lock⟩ := orderly entry.1 entry.2 (Index.get?_eq_some_iff.mpr member)
  exact (lock.tags tag listed).isPlain

theorem IsOrderly.isWord_of_knownHash? (orderly : lockfile.IsOrderly) {id hash : String}
    {file : FileRecord} (known : lockfile.knownHash? id file = some hash) :
    Tag.Edit.isWord hash := by
  obtain ⟨lock, found, -, rfl⟩ := knownHash?_eq_some_iff.mp known
  exact (orderly id lock found).2.hash

/-- The lockfile of an orderly catalog is orderly, if the one before it is. -/
theorem IsOrderly.of_digests (before : previous.IsOrderly) (orderly : catalog.IsOrderly)
    (digests : Digests previous hashes catalog.files.entries)
    (locks : made.locks = catalog.files.map fun id file => lockOf file (hashes id)) :
    made.IsOrderly := by
  intro id lock found
  rw [locks, Index.get?_map, Option.map_eq_some_iff] at found
  obtain ⟨file, there, rfl⟩ := found
  obtain ⟨word, tags⟩ := orderly id file there
  refine ⟨word, ?_, tags⟩
  rcases digests (id, file) (Index.get?_eq_some_iff.mp there) with known | ⟨-, content, digested⟩
  · exact before.isWord_of_knownHash? known
  · rw [lockOf, digested]
    exact isWord_digest content

/-- What is made for an orderly lockfile is made under words. -/
theorem IsOrderly.endsInWords (orderly : lockfile.IsOrderly) {table : LinkTable} {item : Item}
    (made : item ∈ (table.changes (.ofLockfile lockfile)).created) : item.EndsInWords := by
  cases item with
  | file path => exact trivial
  | link stored path =>
      obtain ⟨listed, -⟩ := LinkTable.link_mem_created_iff.mp made
      obtain ⟨id, lock, tag, found, rfl, -, rfl⟩ := LinkTable.exists_tag_of_mem_of listed
      obtain ⟨word, orderly⟩ := orderly id lock found
      exact ⟨endsInWord_storedAt orderly.hash, endsInWord_linkPath word tag⟩

end Lockfile
end TagStore
