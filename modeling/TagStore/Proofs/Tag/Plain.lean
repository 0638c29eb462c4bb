import TagStore.Proofs.Tag.Text

/-!
# Tags that are read back

A tag is read back from its text if it has been read from one, and no segment of it has a colon
then.  The tags of a mapping have their paths from its keys, in which a colon may stand.  Such a tag
is not read back, since its value is taken to begin after the first colon.  The entry that is made
of it has the colon in a key again, so entries lose nothing of the tags that entries stand for.
-/

namespace TagStore
namespace Tag

instance (tag : Tag) : Decidable tag.IsPlain :=
  inferInstanceAs (Decidable (ofText tag.toText = tag))

/-- The tag of a key is read back exactly if the key has no colon. -/
theorem isPlain_ofPath_iff {dotted value : String} :
    (ofPath dotted (some value)).IsPlain ↔ ':' ∉ dotted.toList := by
  have path : (ofPath dotted (some value)).path ≠ [] := Text.pieces_ne_nil '.' dotted
  rw [isPlain_iff, and_iff_right ⟨path, dot_not_mem_ofPath dotted (some value)⟩,
    ← colon_not_mem_dottedPath_iff, dottedPath_ofPath]

/-- A tag that is read back has no colon in its path. -/
theorem IsPlain.colon_free {tag : Tag} (plain : tag.IsPlain) :
    ∀ segment ∈ tag.path, ':' ∉ segment.toList :=
  (isPlain_iff.mp plain).2

/-- The path of a key with a colon has a segment with a colon. -/
theorem exists_segment_of_mem_colon {dotted : String} (present : ':' ∈ dotted.toList)
    (value : Option String) : ∃ segment ∈ (ofPath dotted value).path, ':' ∈ segment.toList := by
  refine Classical.byContradiction fun none => ?_
  rw [← dottedPath_ofPath dotted value] at present
  refine colon_not_mem_dottedPath_iff.mpr (fun segment member inside => ?_) present
  exact none ⟨segment, member, inside⟩

end Tag

/-- The entry that is made of a tag of an entry stands for this tag alone. -/
theorem Entry.tags_ofTag_of_mem {entry : Entry} {tag : Tag} (listed : tag ∈ entry.tags) :
    (ofTag tag).tags = [tag] := by
  rw [tags_ofTag_eq_iff]
  cases entry with
  | plain text =>
      cases List.mem_singleton.mp listed
      obtain ⟨path, colon_free⟩ := Tag.isPlain_iff.mp (Tag.isPlain_ofText text)
      exact ⟨path, .inr colon_free⟩
  | mapping values =>
      obtain ⟨⟨key, value⟩, -, rfl⟩ := List.mem_map.mp listed
      have path : (Tag.ofPath key (some value)).path ≠ [] := Text.pieces_ne_nil '.' key
      exact ⟨⟨path, Tag.dot_not_mem_ofPath key (some value)⟩, .inl rfl⟩

/-- A text is the text of the tag that is read from it.  A tag is read back from its text exactly if
it has segments and these have no dots and colons, and from its entry exactly if it has segments
without dots, in which colons are harmless if a value follows.  Hence it is read back from its entry
if any entry stands for it. -/
theorem Tag.texts_and_entries :
    (∀ text, (ofText text).toText = text) ∧
      (∀ tag : Tag, ofText tag.toText = tag ↔
        tag.path ≠ [] ∧ ∀ segment ∈ tag.path, '.' ∉ segment.toList ∧ ':' ∉ segment.toList) ∧
      (∀ tag : Tag, (Entry.ofTag tag).tags = [tag] ↔
        tag.path ≠ [] ∧ (∀ segment ∈ tag.path, '.' ∉ segment.toList) ∧
          (tag.value.isSome ∨ ∀ segment ∈ tag.path, ':' ∉ segment.toList)) ∧
      ∀ (entry : Entry) (tag : Tag), tag ∈ entry.tags → (Entry.ofTag tag).tags = [tag] := by
  refine ⟨toText_ofText, fun tag => ?_, fun tag => ?_, fun _ _ => Entry.tags_ofTag_of_mem⟩
  · simp only [imp_and, forall_and, ← and_assoc]
    exact isPlain_iff
  · rw [← and_assoc]
    exact Entry.tags_ofTag_eq_iff

/-- A colon in a key is kept by the entry and not by the text. -/
theorem Tag.texts_and_entries_key :
    let tag : Tag := ⟨["a:b", "", "c"], some "d.e:f"⟩
    tag ∈ (Entry.mapping (Index.insert ∅ "a:b..c" "d.e:f")).tags ∧
      (Entry.ofTag tag).tags = [tag] ∧ ofText tag.toText ≠ tag := by
  intro tag
  have listed : tag ∈ (Entry.mapping (Index.insert ∅ "a:b..c" "d.e:f")).tags := by decide
  obtain ⟨-, read, -, entered⟩ := texts_and_entries
  refine ⟨listed, entered _ _ listed, fun same => ?_⟩
  exact absurd ((read tag).mp same).2 (by decide)

end TagStore
