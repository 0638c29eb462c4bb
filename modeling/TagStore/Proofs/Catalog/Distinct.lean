import TagStore.Proofs.Catalog.Tags
import TagStore.Proofs.Catalog.Tidy
import Mathlib.Data.List.Nodup

/-!
# Catalogs in which no file has a tag twice

An edit of a file looks whether its tag is there already, so it never adds a tag twice.  A new file
has every tag that its edits add, as often as they add it.
-/

namespace TagStore

/-- The tags that some edits add, in order. -/
def Tag.Edit.added (edits : List Tag.Edit) : List Tag :=
  (edits.filter (·.action = .add)).map (·.tag)

namespace FileRecord

variable {file : FileRecord} {edit : Tag.Edit} {edits : List Tag.Edit}

/-- A file that has no tag twice. -/
def IsDistinct (file : FileRecord) : Prop := file.tags.Nodup

theorem IsDistinct.apply (distinct : file.IsDistinct) (wellFormed : edit.tag.IsWellFormed) :
    (file.apply edit).IsDistinct := by
  rw [IsDistinct]
  cases action : edit.action with
  | add =>
      rw [tags_apply_add action wellFormed]
      split
      · exact distinct
      · rename_i absent
        exact List.concat_eq_append ▸ List.Nodup.concat absent distinct
  | remove =>
      rw [tags_apply_remove action]
      exact distinct.filter _

/-- A new file is distinct exactly if no tag is added twice. -/
theorem isDistinct_ofEdits_iff (source : String)
    (wellFormed : ∀ edit ∈ edits, edit.tag.IsWellFormed) :
    (ofEdits source edits).IsDistinct ↔ (Tag.Edit.added edits).Nodup := by
  rw [IsDistinct, tags_ofEdits source wellFormed, Tag.Edit.added]

end FileRecord

namespace Catalog

variable {catalog : Catalog} {edits : List Tag.Edit}

/-- A catalog of distinct files under words. -/
def IsDistinct (catalog : Catalog) : Prop := catalog.HasAll FileRecord.IsDistinct

/-- With a new file, a catalog stays distinct exactly if no tag is added to the file twice. -/
theorem IsDistinct.add_iff (distinct : catalog.IsDistinct) (clock : Nat) (source : String)
    (wellFormed : ∀ edit ∈ edits, edit.tag.IsWellFormed) :
    (catalog.add (catalog.freshId clock) (FileRecord.ofEdits source edits)).IsDistinct ↔
      (Tag.Edit.added edits).Nodup := by
  rw [← FileRecord.isDistinct_ofEdits_iff source wellFormed]
  constructor
  · intro later
    refine (later (catalog.freshId clock) _ ?_).2
    rw [Catalog.add, Index.get?_insert, if_pos rfl]
  · exact HasAll.add distinct (catalog.isWord_freshId clock)

end Catalog
end TagStore
