import TagStore.Proofs.Links.Path
import TagStore.Proofs.Links.Table
import TagStore.Proofs.Lockfile.Format
import TagStore.Proofs.Lockfile.Store
import TagStore.Proofs.Tag.Plain

/-!
# Lockfiles that are read back

What is read from the text of a lockfile is the lockfile with each tag read back from its own text.
This makes a difference exactly if a key of a mapping in the catalog has a colon.  The links of what
is read are not those of the lockfile then: no tag that is read from a text has a colon in its path,
so none of them gives the link of such a key.
-/

namespace TagStore

/-! ## Records that are read back -/

/-- The record with its tags as they are read back from their texts. -/
def Lock.reread (lock : Lock) : Lock :=
  { lock with tags := lock.tags.map fun tag => Tag.ofText tag.toText }

namespace Lockfile

variable {lockfile : Lockfile}

/-- The lockfile with all tags as they are read back from their texts. -/
def reread (lockfile : Lockfile) : Lockfile := ⟨lockfile.locks.map fun _ lock => lock.reread⟩

theorem isPlain_reread (lockfile : Lockfile) : lockfile.reread.IsPlain := by
  intro entry listed tag member
  obtain ⟨earlier, -, rfl⟩ := List.mem_map.mp listed
  obtain ⟨other, -, rfl⟩ := List.mem_map.mp member
  exact Tag.isPlain_ofText _

theorem toJson_reread (lock : Lock) : lock.reread.toJson = lock.toJson := by
  simp [Lock.toJson, Lock.reread, Tag.toText_ofText]

/-- Reading tags back does not change the text of a lockfile. -/
theorem toText_reread (lockfile : Lockfile) : lockfile.reread.toText = lockfile.toText := by
  simp [toText, toJson, reread, Index.map, Function.comp_def, toJson_reread]

/-- What is read from the text of a lockfile is the lockfile with its tags read back. -/
theorem ofBytes_toText_reread (lockfile : Lockfile) :
    ofBytes lockfile.toText.toUTF8 = .ok lockfile.reread := by
  rw [← toText_reread]
  exact lockfile.reread.ofBytes_toText lockfile.isPlain_reread

theorem get?_reread (id : String) :
    lockfile.reread.locks.get? id = (lockfile.locks.get? id).map Lock.reread :=
  Index.get?_map _ _ _

theorem reread_eq_iff : lockfile.reread = lockfile ↔ lockfile.IsPlain := by
  constructor
  · intro same
    exact same ▸ lockfile.isPlain_reread
  · intro plain
    have read := ofBytes_toText_reread lockfile
    rw [lockfile.ofBytes_toText plain] at read
    exact (Except.ok.inj read).symm

/-! ## Links that are read back -/

theorem mem_colon_linkSegment_iff {text : String} :
    ':' ∈ (linkSegment text).toList ↔ ':' ∈ text.toList := by
  rw [toList_linkSegment]
  constructor
  · intro member
    obtain ⟨c, listed, same⟩ := List.mem_map.mp member
    rw [linkChar] at same
    split at same
    · cases same
    · exact same ▸ listed
  · exact fun member => List.mem_map.mpr ⟨':', member, rfl⟩

/-- Links with equal paths have equal names. -/
theorem linkNames_eq_of_linkPath_eq {first second : String} {tag other : Tag}
    (same : linkPath first tag = linkPath second other) :
    linkNames first tag = linkNames second other := by
  rw [linkPath_eq, linkPath_eq] at same
  have parts := congrArg Location.parts same
  rwa [Location.parts_ofParts linkNames_ne_nil (slashFree_linkNames _ _),
    Location.parts_ofParts linkNames_ne_nil (slashFree_linkNames _ _)] at parts

/-- No tag that is read back has the link of a key with a colon. -/
theorem linkPath_ne_of_isPlain {id other dotted value : String} {tag : Tag}
    (present : ':' ∈ dotted.toList) (plain : tag.IsPlain) :
    linkPath id (Tag.ofPath dotted (some value)) ≠ linkPath other tag := by
  intro same
  have names := linkNames_eq_of_linkPath_eq same
  rw [linkNames_eq, linkNames_eq] at names
  have directories := (List.append_inj' names rfl).1
  simp only [List.map_append] at directories
  -- Whether or not the tag has a value, each segment of the key is found in its path.
  have inside : ∀ name ∈ (Tag.ofPath dotted (some value)).path.map linkSegment,
      name ∈ tag.path.map linkSegment := by
    intro name listed
    cases has : tag.value with
    | none =>
        rw [has, Option.toList_none, List.map_nil, List.append_nil] at directories
        exact directories ▸ List.mem_append_left _ listed
    | some content =>
        rw [has] at directories
        exact (List.append_inj' directories rfl).1 ▸ listed
  obtain ⟨segment, listed, colon⟩ := Tag.exists_segment_of_mem_colon present (some value)
  obtain ⟨found, member, same⟩ := List.mem_map.mp (inside _ (List.mem_map_of_mem listed))
  have colon := mem_colon_linkSegment_iff.mpr colon
  rw [← same, mem_colon_linkSegment_iff] at colon
  exact plain.colon_free found member colon

end Lockfile

/-! ## Keys with colons -/

namespace Catalog

/-- No key of a mapping has a colon. -/
def IsColonFree (catalog : Catalog) : Prop :=
  ∀ entry ∈ catalog.files.entries, ∀ values, Entry.mapping values ∈ entry.2.entries →
    ∀ key ∈ values.keys, ':' ∉ key.toList

theorem isColonFree_iff {catalog : Catalog} :
    catalog.IsColonFree ↔ ∀ entry ∈ catalog.files.entries, ∀ tag ∈ entry.2.tags, tag.IsPlain := by
  constructor
  · intro free entry listed tag member
    obtain ⟨written, among, of⟩ := List.mem_flatMap.mp member
    cases written with
    | plain text =>
        rw [List.mem_singleton.mp of]
        exact Tag.isPlain_ofText text
    | mapping values =>
        obtain ⟨pair, has, rfl⟩ := List.mem_map.mp of
        exact Tag.isPlain_ofPath_iff.mpr
          (free entry listed values among pair.1 (List.mem_map_of_mem has))
  · intro plain entry listed values among key member
    obtain ⟨pair, has, rfl⟩ := List.mem_map.mp member
    apply Tag.isPlain_ofPath_iff.mp
    exact plain entry listed _ (List.mem_flatMap.mpr ⟨_, among, List.mem_map.mpr ⟨pair, has, rfl⟩⟩)

theorem exists_key_of_not_isColonFree {catalog : Catalog} (present : ¬catalog.IsColonFree) :
    ∃ entry ∈ catalog.files.entries, ∃ dotted value,
      ':' ∈ dotted.toList ∧ Tag.ofPath dotted (some value) ∈ entry.2.tags := by
  refine Classical.byContradiction fun none => present ?_
  intro entry listed values among key member colon
  obtain ⟨pair, has, rfl⟩ := List.mem_map.mp member
  exact none ⟨entry, listed, pair.1, pair.2, colon,
    List.mem_flatMap.mpr ⟨_, among, List.mem_map.mpr ⟨pair, has, rfl⟩⟩⟩

end Catalog

namespace Lockfile

variable {catalog : Catalog} {previous lockfile : Lockfile} {output : String} {dry : Bool}
  {disk stocked : Disk} {hashes : String → String}

theorem isPlain_iff_isColonFree
    (locks : lockfile.locks = catalog.files.map fun id file => lockOf file (hashes id)) :
    lockfile.IsPlain ↔ catalog.IsColonFree := by
  rw [Catalog.isColonFree_iff, IsPlain, locks]
  constructor
  · intro plain entry listed
    exact plain _ (List.mem_map.mpr ⟨entry, listed, rfl⟩)
  · rintro plain _ listed
    obtain ⟨entry, member, rfl⟩ := List.mem_map.mp listed
    exact plain entry member

/-- A key with a colon has a link that is lost when the lockfile is read back. -/
theorem links_ne_of_not_isColonFree
    (locks : lockfile.locks = catalog.files.map fun id file => lockOf file (hashes id))
    (present : ¬catalog.IsColonFree) :
    LinkTable.ofLockfile lockfile.reread ≠ LinkTable.ofLockfile lockfile := by
  intro same
  obtain ⟨⟨id, file⟩, listed, dotted, value, colon, has⟩ :=
    Catalog.exists_key_of_not_isColonFree present
  have linked : linkPath id (Tag.ofPath dotted (some value)) ∈
      (LinkTable.ofLockfile lockfile).of (storedAt (hashes id)) := by
    refine LinkTable.mem_of_ofLockfile.mpr ⟨id, lockOf file (hashes id), ?_, rfl, ?_⟩
    · rw [locks, Index.get?_map, Index.get?_eq_some_iff.mpr listed, Option.map_some]
    · exact List.mem_map_of_mem has
  rw [← same, LinkTable.mem_of_ofLockfile] at linked
  obtain ⟨other, lock, found, -, listed⟩ := linked
  obtain ⟨tag, member, same⟩ := List.mem_map.mp listed
  have plain := lockfile.isPlain_reread _ (Index.get?_eq_some_iff.mp found) tag member
  exact linkPath_ne_of_isPlain colon plain same.symm

end Lockfile

end TagStore
