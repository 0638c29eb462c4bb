import TagStore.Catalog.Basic
import TagStore.Proofs.Tag.Text
import Mathlib.Data.List.Basic

/-!
# Tags of edited files

The tags of a file after an edit, as a list: a tag that is new to the file comes last, and a removed
tag is left out wherever it stood.  A file that begins with edits has just the tags they add, as
often as they add them.
-/

namespace TagStore

namespace Entry

/-- Taking a tag from an entry leaves its other tags; an entry that is left out had no others. -/
theorem tags_without (tag : Tag) (entry : Entry) :
    (if entry.survives tag then (entry.without tag).tags else []) =
      entry.tags.filter (· ≠ tag) := by
  cases entry with
  | plain text =>
      by_cases same : Tag.ofText text = tag
      · simp [survives, tags, same]
      · simp [survives, without, tags, same]
  | mapping values =>
      have left : (without tag (mapping values)).tags =
          (mapping values).tags.filter (· ≠ tag) := by
        simp only [without, tags, Index.filter, List.filter_map, Function.comp_def]
      split
      · exact left
      · rename_i gone
        have empty :
            (values.filter fun path value => Tag.ofPath path (some value) ≠ tag).size = 0 :=
          not_not.mp (decide_eq_true_iff.not.mp gone)
        rw [← left, without, tags, List.length_eq_zero_iff.mp empty, List.map_nil]

theorem tags_removeAll (tag : Tag) (entries : List Entry) :
    (removeAll tag entries).flatMap tags = (entries.flatMap tags).filter (· ≠ tag) := by
  induction entries with
  | nil => rfl
  | cons entry rest induction =>
      rw [List.flatMap_cons, List.filter_append, ← induction, ← tags_without tag entry, removeAll,
        List.filter_cons]
      split <;> rfl

end Entry

namespace FileRecord

variable {file : FileRecord} {edit : Tag.Edit} {edits : List Tag.Edit}

theorem tags_apply_add (adds : edit.action = .add) (wellFormed : edit.tag.IsWellFormed) :
    (file.apply edit).tags =
      if edit.tag ∈ file.tags then file.tags else file.tags ++ [edit.tag] := by
  simp only [apply, adds, List.contains_iff_mem]
  split
  · rfl
  · rw [tags, List.flatMap_append, List.flatMap_singleton, Entry.tags_ofTag wellFormed]
    rfl

theorem tags_apply_remove (removes : edit.action = .remove) :
    (file.apply edit).tags = file.tags.filter (· ≠ edit.tag) := by
  simp only [apply, removes]
  exact Entry.tags_removeAll edit.tag file.entries

theorem tags_ofEdits (source : String) (wellFormed : ∀ edit ∈ edits, edit.tag.IsWellFormed) :
    (ofEdits source edits).tags = (edits.filter (·.action = .add)).map (·.tag) := by
  rw [tags, ofEdits, List.flatMap_map, List.map_eq_flatMap]
  refine List.flatMap_congr fun edit member => ?_
  exact Entry.tags_ofTag (wellFormed edit (List.mem_filter.mp member).1)

/-- After an edit that adds a tag, a file has this tag and those that it had. -/
theorem mem_tags_apply_add_iff (adds : edit.action = .add) (wellFormed : edit.tag.IsWellFormed)
    {tag : Tag} : tag ∈ (file.apply edit).tags ↔ tag ∈ file.tags ∨ tag = edit.tag := by
  rw [tags_apply_add adds wellFormed]
  split
  · rename_i present
    exact ⟨.inl, fun either => either.elim id fun same => same ▸ present⟩
  · rw [List.mem_append, List.mem_singleton]

end FileRecord
end TagStore
