import TagStore.Proofs.Catalog.Tags
import TagStore.Proofs.Index

/-!
# Orderly catalogs

A catalog is orderly if its identifiers are words and the tags of its files are such as an edit may
name.  Editing an orderly catalog leaves it orderly, whatever the edits add and remove.
-/

namespace TagStore

namespace FileRecord

variable {file : FileRecord} {edits : List Tag.Edit}

/-- What each edit keeps is kept by all of them. -/
theorem applyAll_of_apply {kind : FileRecord → Prop}
    (kept : ∀ edit ∈ edits, ∀ file, kind file → kind (file.apply edit)) (holds : kind file) :
    kind (file.applyAll edits) := by
  induction edits generalizing file with
  | nil => exact holds
  | cons edit rest induction =>
      obtain ⟨first, later⟩ := List.forall_mem_cons.mp kept
      exact induction later (first file holds)

/-- A file with no other tags than an edit may name. -/
def IsOrderly (file : FileRecord) : Prop := ∀ tag ∈ file.tags, tag.IsWellFormed

theorem IsOrderly.apply (orderly : file.IsOrderly) {edit : Tag.Edit}
    (wellFormed : edit.tag.IsWellFormed) : (file.apply edit).IsOrderly := by
  intro tag listed
  cases action : edit.action with
  | add =>
      rcases (mem_tags_apply_add_iff action wellFormed).mp listed with earlier | rfl
      · exact orderly tag earlier
      · exact wellFormed
  | remove =>
      rw [tags_apply_remove action] at listed
      exact orderly tag (List.mem_filter.mp listed).1

theorem isOrderly_ofEdits (source : String)
    (wellFormed : ∀ edit ∈ edits, edit.tag.IsWellFormed) : (ofEdits source edits).IsOrderly := by
  rw [IsOrderly, tags_ofEdits source wellFormed]
  exact List.forall_mem_map.mpr fun edit chosen => wellFormed edit (List.mem_filter.mp chosen).1

end FileRecord

namespace Catalog

variable {catalog : Catalog} {kind : FileRecord → Prop}

/-- A catalog of files of one kind under words. -/
def HasAll (kind : FileRecord → Prop) (catalog : Catalog) : Prop :=
  ∀ id file, catalog.files.get? id = some file → Tag.Edit.isWord id ∧ kind file

theorem hasAll_empty : ({} : Catalog).HasAll kind := by
  intro id file found
  cases found

theorem HasAll.add (all : catalog.HasAll kind) {id : String} {file : FileRecord}
    (word : Tag.Edit.isWord id) (new : kind file) : (catalog.add id file).HasAll kind := by
  intro other found there
  rw [Catalog.add, Index.get?_insert] at there
  split at there
  · rename_i same
    cases there
    exact ⟨same ▸ word, new⟩
  · exact all other found there

theorem HasAll.remove (all : catalog.HasAll kind) (query : Query) :
    (catalog.remove query).HasAll kind := by
  intro id file there
  rw [Catalog.remove, Index.get?_filter, Option.filter_eq_some_iff] at there
  exact all id file there.1

theorem HasAll.retag (all : catalog.HasAll kind) (query : Query) {edits : List Tag.Edit}
    (kept : ∀ file, kind file → kind (file.applyAll edits)) :
    (catalog.retag query edits).HasAll kind := by
  intro id file there
  rw [Catalog.retag, Index.get?_map, Option.map_eq_some_iff] at there
  obtain ⟨before, found, rfl⟩ := there
  obtain ⟨word, holds⟩ := all id before found
  refine ⟨word, ?_⟩
  split
  · exact kept before holds
  · exact holds

/-- A catalog of orderly files under words. -/
def IsOrderly (catalog : Catalog) : Prop := catalog.HasAll FileRecord.IsOrderly

theorem IsOrderly.retag (orderly : catalog.IsOrderly) (query : Query) {edits : List Tag.Edit}
    (wellFormed : ∀ edit ∈ edits, edit.tag.IsWellFormed) :
    (catalog.retag query edits).IsOrderly :=
  HasAll.retag orderly query fun _ file => FileRecord.applyAll_of_apply
    (fun edit member _ before => before.apply (wellFormed edit member)) file

end Catalog
end TagStore
