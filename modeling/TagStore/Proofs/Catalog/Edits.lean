import TagStore.Proofs.Catalog.Tags
import TagStore.Proofs.Command.Line

/-!
# Edits of tags as edits of an ordered set

However the tags of a file are written down, in plain entries or in mappings, once or several times,
an edit makes of their list what it would make of an ordered set.  So the last edit that names a tag
decides whether a file has it, and carrying out the same edits again makes no difference to which
tags a file has.
-/

namespace TagStore

namespace Tag.Edit

variable {edit : Edit} {edits : List Edit} {tag : Tag} {tags : List Tag}

/-- The tags after an edit: a tag that was not there comes last, and one that goes is left out
wherever it stood. -/
def revise (edit : Edit) (tags : List Tag) : List Tag :=
  match edit.action with
  | .add => if edit.tag ∈ tags then tags else tags ++ [edit.tag]
  | .remove => tags.filter (· ≠ edit.tag)

/-- The tags after some edits in order. -/
def reviseAll (edits : List Edit) (tags : List Tag) : List Tag :=
  edits.foldl (fun tags edit => edit.revise tags) tags

/-- What the last edit that names a tag does with it. -/
def lastAction? (edits : List Edit) (tag : Tag) : Option Action :=
  (edits.filter (·.tag = tag)).getLast?.map (·.action)

theorem mem_revise_iff :
    tag ∈ edit.revise tags ↔ if edit.tag = tag then edit.action = .add else tag ∈ tags := by
  rw [revise]
  cases edit.action with
  | add =>
      simp only
      split
      · rename_i present
        split
        · rename_i same
          simpa [← same] using present
        · exact Iff.rfl
      · rw [List.mem_append, List.mem_singleton]
        split
        · rename_i same
          simp [same]
        · rename_i other
          simp [Ne.symm other]
  | remove =>
      simp only [List.mem_filter, decide_eq_true_eq]
      split
      · rename_i same
        simp [same]
      · rename_i other
        simp [Ne.symm other]

theorem lastAction?_cons :
    lastAction? (edit :: edits) tag =
      (lastAction? edits tag).or (if edit.tag = tag then some edit.action else none) := by
  rw [lastAction?, lastAction?, List.filter_cons]
  by_cases same : edit.tag = tag
  · simp only [same, decide_true, if_true, List.getLast?_cons]
    cases (edits.filter (·.tag = tag)).getLast? with
    | none => rfl
    | some last => rfl
  · simp [same]

/-- The last edit that names a tag decides whether it is there. -/
theorem mem_reviseAll_iff :
    tag ∈ reviseAll edits tags ↔
      lastAction? edits tag = some .add ∨ lastAction? edits tag = none ∧ tag ∈ tags := by
  induction edits generalizing tags with
  | nil => simp [reviseAll, lastAction?]
  | cons edit rest induction =>
      have step : reviseAll (edit :: rest) tags = reviseAll rest (edit.revise tags) := rfl
      rw [step, induction, mem_revise_iff, lastAction?_cons]
      cases lastAction? rest tag with
      | some action => simp
      | none =>
          by_cases same : edit.tag = tag
          · simp [same]
          · simp [same]

/-- Revising by the same edits again makes no difference to what is there. -/
theorem mem_reviseAll_reviseAll_iff :
    tag ∈ reviseAll edits (reviseAll edits tags) ↔ tag ∈ reviseAll edits tags := by
  rw [mem_reviseAll_iff, mem_reviseAll_iff]
  constructor
  · rintro (added | ⟨-, before⟩)
    · exact .inl added
    · exact before
  · rintro (added | ⟨unnamed, before⟩)
    · exact .inl added
    · exact .inr ⟨unnamed, .inr ⟨unnamed, before⟩⟩

end Tag.Edit

namespace FileRecord

open Tag.Edit (lastAction? mem_reviseAll_iff mem_reviseAll_reviseAll_iff reviseAll)

variable {file : FileRecord} {edit : Tag.Edit} {edits : List Tag.Edit}

theorem source_apply (file : FileRecord) (edit : Tag.Edit) :
    (file.apply edit).source = file.source := by
  rw [apply]
  split
  · split
    · rfl
    · rfl
  · rfl

theorem tags_apply (wellFormed : edit.tag.IsWellFormed) :
    (file.apply edit).tags = edit.revise file.tags := by
  rw [Tag.Edit.revise]
  split
  · rename_i adds
    exact tags_apply_add adds wellFormed
  · rename_i removes
    exact tags_apply_remove removes

theorem source_applyAll (file : FileRecord) (edits : List Tag.Edit) :
    (file.applyAll edits).source = file.source := by
  induction edits generalizing file with
  | nil => rfl
  | cons edit rest induction => exact (induction (file.apply edit)).trans (source_apply file edit)

theorem tags_applyAll (wellFormed : ∀ edit ∈ edits, edit.tag.IsWellFormed) :
    (file.applyAll edits).tags = reviseAll edits file.tags := by
  induction edits generalizing file with
  | nil => rfl
  | cons edit rest induction =>
      obtain ⟨first, later⟩ := List.forall_mem_cons.mp wellFormed
      have step : reviseAll (edit :: rest) file.tags = reviseAll rest (edit.revise file.tags) := rfl
      rw [step, ← tags_apply first]
      exact induction later

/-- Edits that have been read from texts act on the tags of a file as on an ordered set and leave
its source alone, one by one.  After all of them, a file has a tag exactly if the last edit that
names the tag adds it, or none names it and the file had it before.  Carrying them out again makes
no difference to which tags it has. -/
theorem edits_revise_tags (file : FileRecord)
    (written : ∀ edit ∈ edits, Command.IsWritten edit) :
    (∀ edit ∈ edits, ∀ earlier : FileRecord,
      (earlier.apply edit).source = earlier.source ∧
        (earlier.apply edit).tags = edit.revise earlier.tags) ∧
      (file.applyAll edits).source = file.source ∧
      (∀ tag, tag ∈ (file.applyAll edits).tags ↔
        lastAction? edits tag = some .add ∨ lastAction? edits tag = none ∧ tag ∈ file.tags) ∧
      ∀ tag, tag ∈ ((file.applyAll edits).applyAll edits).tags ↔
        tag ∈ (file.applyAll edits).tags := by
  have wellFormed : ∀ edit ∈ edits, edit.tag.IsWellFormed := by
    intro edit member
    obtain ⟨_, read⟩ := written edit member
    exact Tag.Edit.isWellFormed_of_ofText? read
  refine ⟨fun edit member earlier => ?_, source_applyAll file edits, fun tag => ?_, fun tag => ?_⟩
  · exact ⟨source_apply earlier edit, tags_apply (wellFormed edit member)⟩
  · rw [tags_applyAll wellFormed]
    exact mem_reviseAll_iff
  · rw [tags_applyAll wellFormed, tags_applyAll wellFormed]
    exact mem_reviseAll_reviseAll_iff

/-- A file with a tag that it has in three entries, and with an empty mapping. -/
def repetitive : FileRecord :=
  ⟨"photo", [.plain "fur:red", .mapping ∅,
    .mapping (Index.ofList [("fur", "red"), ("size", "big")]), .plain "cat", .plain "fur:red"]⟩

/-- The tag is taken from all entries and comes last when it is added again. -/
theorem repetitive_revised :
    let edits : List Tag.Edit :=
      [⟨.remove, ⟨["fur"], some "red"⟩⟩, ⟨.add, ⟨["cat"], none⟩⟩, ⟨.add, ⟨["fur"], some "red"⟩⟩]
    (∀ edit ∈ edits, Command.IsWritten edit) ∧
      (repetitive.applyAll edits).tags =
        [⟨["size"], some "big"⟩, ⟨["cat"], none⟩, ⟨["fur"], some "red"⟩] ∧
      ∀ tag, tag ∈ ((repetitive.applyAll edits).applyAll edits).tags ↔
        tag ∈ (repetitive.applyAll edits).tags := by
  intro edits
  have written : ∀ edit ∈ edits, Command.IsWritten edit :=
    List.forall_mem_cons.mpr ⟨⟨"-fur:red", by decide⟩, List.forall_mem_cons.mpr
      ⟨⟨"+cat", by decide⟩, List.forall_mem_singleton.mpr ⟨"+fur:red", by decide⟩⟩⟩
  exact ⟨written, by decide +kernel, (edits_revise_tags repetitive written).2.2.2⟩

end FileRecord
end TagStore
