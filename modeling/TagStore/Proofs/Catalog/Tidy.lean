import TagStore.Proofs.Catalog.Orderly
import TagStore.Proofs.Links.Path

/-!
# Tidy catalogs

A catalog is tidy if its identifiers are words and each of its entries is that of a single tag which
gives a link.  Editing a tidy catalog leaves it tidy: what a tag is taken from is left as it was or
goes altogether.
-/

namespace TagStore
namespace Entry

/-- An entry of a single tag that gives a link. -/
def IsTidy (entry : Entry) : Prop := ∃ tag : Tag, tag.IsLinkable ∧ entry = ofTag tag

/-- A tag is taken from a tidy entry altogether or not at all. -/
theorem without_of_survives {entry : Entry} (tidy : entry.IsTidy) {tag : Tag}
    (survives : entry.survives tag) : entry.without tag = entry := by
  obtain ⟨own, -, rfl⟩ := tidy
  rw [ofTag] at survives ⊢
  split at survives
  · rename_i value _
    simp only [Entry.survives, without, mapping.injEq] at survives ⊢
    apply Index.ext_entries
    have single : ((∅ : Index String String).insert own.dottedPath value).entries =
      [(own.dottedPath, value)] := rfl
    simp only [Index.size, Index.filter, single] at survives ⊢
    by_cases same : Tag.ofPath own.dottedPath (some value) = tag
    · simp [same] at survives
    · simp [same]
  · rfl

end Entry

namespace FileRecord

/-- A file with no other entries than tidy ones. -/
def IsTidy (file : FileRecord) : Prop := ∀ entry ∈ file.entries, entry.IsTidy

variable {file : FileRecord}

theorem IsTidy.linkable (tidy : file.IsTidy) {tag : Tag} (listed : tag ∈ file.tags) :
    tag.IsLinkable := by
  obtain ⟨entry, member, listed⟩ := List.mem_flatMap.mp listed
  obtain ⟨own, linkable, rfl⟩ := tidy entry member
  rw [Entry.tags_ofTag linkable.toIsWellFormed, List.mem_singleton] at listed
  exact listed ▸ linkable

theorem IsTidy.apply (tidy : file.IsTidy) {edit : Tag.Edit} (linkable : edit.tag.IsLinkable) :
    (file.apply edit).IsTidy := by
  rw [FileRecord.apply]
  split
  · split
    · exact tidy
    · exact List.forall_mem_append.mpr ⟨tidy, List.forall_mem_singleton.mpr ⟨_, linkable, rfl⟩⟩
  · intro entry member
    obtain ⟨before, kept, rfl⟩ := List.mem_map.mp member
    obtain ⟨earlier, survives⟩ := List.mem_filter.mp kept
    rw [Entry.without_of_survives (tidy before earlier) survives]
    exact tidy before earlier

theorem isTidy_ofEdits (source : String) {edits : List Tag.Edit}
    (linkable : ∀ edit ∈ edits, edit.tag.IsLinkable) : (ofEdits source edits).IsTidy := by
  intro entry member
  obtain ⟨edit, listed, rfl⟩ := List.mem_map.mp member
  exact ⟨edit.tag, linkable edit (List.mem_filter.mp listed).1, rfl⟩

end FileRecord

namespace Catalog

/-- A catalog of tidy files under words. -/
def IsTidy (catalog : Catalog) : Prop :=
  ∀ id file, catalog.files.get? id = some file → Tag.Edit.isWord id ∧ file.IsTidy

theorem isWord_toString (number : Nat) : Tag.Edit.isWord (toString number) := by
  have letters : (toString number).toList = Nat.toDigits 10 number := Nat.toList_repr
  rw [Tag.Edit.isWord, Bool.and_eq_true, decide_eq_true_eq, List.all_eq_true, letters]
  constructor
  · intro empty
    rw [empty] at letters
    exact Nat.toDigits_ne_nil letters.symm
  · intro c member
    have digit := Nat.isDigit_of_mem_toDigits (by decide) (by decide) member
    rw [Text.isWordChar_iff]
    rw [Char.isDigit_iff_toNat] at digit
    exact .inl (.inr digit)

/-- The identifier of a new file is a word. -/
theorem isWord_freshId (catalog : Catalog) (clock : Nat) :
    Tag.Edit.isWord (catalog.freshId clock) := by
  simp only [freshId]
  cases found : List.find? _ _ with
  | none => exact isWord_toString clock
  | some id =>
      obtain ⟨later, -, rfl⟩ := List.mem_map.mp (List.mem_of_find?_eq_some found)
      exact isWord_toString _

theorem isTidy_empty : ({} : Catalog).IsTidy := hasAll_empty

end Catalog
end TagStore
