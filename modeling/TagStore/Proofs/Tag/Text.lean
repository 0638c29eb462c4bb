import TagStore.Proofs.Text.Chars
import TagStore.Tag.Edit
import TagStore.Tag.Entry

/-!
# Tags and their texts

A tag is read back from its text exactly if its path has segments without dots and colons, and the
entry that is made of it stands for it under nearly the same condition.  The tag of an edit has
words for segments, so both hold of it.
-/

namespace TagStore
namespace Tag

/-- A tag that is read back from its text. -/
def IsPlain (tag : Tag) : Prop := ofText tag.toText = tag

/-- A tag that an edit may name: words with dots between them and perhaps a value on one line. -/
structure IsWellFormed (tag : Tag) : Prop where
  path_ne_nil : tag.path ≠ []
  segments : ∀ segment ∈ tag.path, Edit.isWord segment
  value : ∀ value ∈ tag.value, Edit.isValue value

theorem not_mem_of_isWord {segment : String} (word : Edit.isWord segment) {c : Char}
    (outside : ¬Text.isWordChar c) : c ∉ segment.toList := by
  intro member
  rw [Edit.isWord, Bool.and_eq_true, List.all_eq_true] at word
  exact outside (word.2 c member)

/-! ## Dotted paths -/

theorem dottedPath_eq (tag : Tag) :
    tag.dottedPath = (String.singleton '.').intercalate tag.path := rfl

theorem dottedPath_ofPath (dotted : String) (value : Option String) :
    (ofPath dotted value).dottedPath = dotted :=
  Text.intercalate_pieces '.' dotted

/-- The segments are found in the dotted path unless there are none or one has a dot. -/
theorem ofPath_dottedPath_eq_iff {tag : Tag} (value : Option String) :
    ofPath tag.dottedPath value = ⟨tag.path, value⟩ ↔
      tag.path ≠ [] ∧ ∀ segment ∈ tag.path, '.' ∉ segment.toList := by
  rw [ofPath, mk.injEq, and_iff_left rfl, dottedPath_eq]
  exact Text.pieces_intercalate_eq_iff

theorem colon_not_mem_dottedPath_iff {tag : Tag} :
    ':' ∉ tag.dottedPath.toList ↔ ∀ segment ∈ tag.path, ':' ∉ segment.toList := by
  rw [dottedPath_eq]
  exact Text.not_mem_intercalate_iff (by decide)

theorem dot_not_mem_ofPath (dotted : String) (value : Option String) :
    ∀ segment ∈ (ofPath dotted value).path, '.' ∉ segment.toList :=
  fun _ listed => Text.not_mem_of_mem_pieces listed

/-! ## Texts -/

theorem toText_ofPath_some (dotted value : String) :
    (ofPath dotted (some value)).toText = dotted ++ ":" ++ value := by
  rw [toText, dottedPath_ofPath]
  rfl

theorem toText_ofPath_none (dotted : String) : (ofPath dotted none).toText = dotted :=
  dottedPath_ofPath dotted none

/-- What a tag is read from is its text. -/
theorem toText_ofText (text : String) : (ofText text).toText = text := by
  rw [ofText]
  split
  · rename_i dotted value found
    rw [toText_ofPath_some]
    exact (Text.cut_eq_some found).2.symm
  · exact toText_ofPath_none text

/-- A tag that has been read from a text is read back from its own. -/
theorem isPlain_ofText (text : String) : (ofText text).IsPlain := by
  rw [IsPlain, toText_ofText]

theorem ofText_toText {tag : Tag} (absent : ':' ∉ tag.dottedPath.toList) :
    ofText tag.toText = ofPath tag.dottedPath tag.value := by
  cases given : tag.value with
  | none =>
      have uncut := Text.cut_of_not_mem absent
      simp only [toText, given, ofText, uncut]
  | some value =>
      have split := Text.cut_append absent value
      simp only [toText, given, ofText]
      rw [show ":" = String.singleton ':' from rfl, split]

/-- No colon is left in front of the value of a tag that has been read. -/
theorem colon_not_mem_ofText (text : String) :
    ':' ∉ (ofText text).dottedPath.toList := by
  rw [ofText]
  split
  · rename_i found
    rw [dottedPath_ofPath]
    exact (Text.cut_eq_some found).1
  · rename_i uncut
    rw [dottedPath_ofPath]
    exact Text.not_mem_of_cut uncut

theorem isPlain_iff {tag : Tag} :
    tag.IsPlain ↔ (tag.path ≠ [] ∧ ∀ segment ∈ tag.path, '.' ∉ segment.toList) ∧
      ∀ segment ∈ tag.path, ':' ∉ segment.toList := by
  rw [← colon_not_mem_dottedPath_iff, ← ofPath_dottedPath_eq_iff tag.value]
  constructor
  · intro plain
    have absent : ':' ∉ tag.dottedPath.toList := by
      have absent := colon_not_mem_ofText tag.toText
      rwa [plain] at absent
    exact ⟨(ofText_toText absent).symm.trans plain, absent⟩
  · rintro ⟨path, absent⟩
    exact (ofText_toText absent).trans path

/-! ## Tags of edits -/

section WellFormed

variable {tag : Tag}

theorem IsWellFormed.dot_free (wellFormed : tag.IsWellFormed) :
    ∀ segment ∈ tag.path, '.' ∉ segment.toList :=
  fun segment member => not_mem_of_isWord (wellFormed.segments segment member) (by decide)

theorem ofPath_dottedPath (wellFormed : tag.IsWellFormed) (value : Option String) :
    ofPath tag.dottedPath value = ⟨tag.path, value⟩ :=
  (ofPath_dottedPath_eq_iff value).mpr ⟨wellFormed.path_ne_nil, wellFormed.dot_free⟩

theorem IsWellFormed.isPlain (wellFormed : tag.IsWellFormed) : tag.IsPlain := by
  refine isPlain_iff.mpr ⟨⟨wellFormed.path_ne_nil, wellFormed.dot_free⟩, fun segment member => ?_⟩
  exact not_mem_of_isWord (wellFormed.segments segment member) (by decide)

end WellFormed

theorem ofText_path_ne_nil (text : String) : (ofText text).path ≠ [] := by
  rw [ofText]
  split
  · exact Text.pieces_ne_nil '.' _
  · exact Text.pieces_ne_nil '.' text

theorem Edit.isWellFormed_of_tagOfText? {text : String} {tag : Tag}
    (read : tagOfText? text = some tag) : tag.IsWellFormed := by
  simp only [tagOfText?, Option.ite_none_right_eq_some, Option.some.injEq] at read
  rcases read with ⟨editable, rfl⟩
  rw [isEditable, Bool.and_eq_true, List.all_eq_true, Option.all_eq_true] at editable
  exact ⟨ofText_path_ne_nil text, editable.1, editable.2⟩

theorem Edit.ofText_eq_ok_iff {text : String} {edit : Edit} :
    ofText text = .ok edit ↔ ofText? text = some edit := by
  rw [ofText]
  cases ofText? text <;> simp

/-- The tag of an edit that can be read is well-formed. -/
theorem Edit.isWellFormed_of_ofText? {text : String} {edit : Edit}
    (read : ofText? text = some edit) : edit.tag.IsWellFormed := by
  rw [ofText?] at read
  split at read
  · obtain ⟨tag, found, rfl⟩ := Option.map_eq_some_iff.mp read
    exact isWellFormed_of_tagOfText? found
  · obtain ⟨tag, found, rfl⟩ := Option.map_eq_some_iff.mp read
    exact isWellFormed_of_tagOfText? found
  · cases read

end Tag

namespace Entry

/-- The entry that is made of a tag stands for this tag alone, unless its path is lost in the dots
or is taken for a path and a value. -/
theorem tags_ofTag_eq_iff {tag : Tag} :
    (ofTag tag).tags = [tag] ↔
      (tag.path ≠ [] ∧ ∀ segment ∈ tag.path, '.' ∉ segment.toList) ∧
        (tag.value.isSome ∨ ∀ segment ∈ tag.path, ':' ∉ segment.toList) := by
  obtain ⟨path, value⟩ := tag
  cases value with
  | none =>
      have plain : (ofTag ⟨path, none⟩).tags = [⟨path, none⟩] ↔ Tag.IsPlain ⟨path, none⟩ :=
        List.singleton_inj
      simp [plain, Tag.isPlain_iff]
  | some value =>
      have keyed : (ofTag ⟨path, some value⟩).tags = [⟨path, some value⟩] ↔
          Tag.ofPath (Tag.dottedPath ⟨path, some value⟩) (some value) = ⟨path, some value⟩ :=
        List.singleton_inj
      rw [keyed, Tag.ofPath_dottedPath_eq_iff (some value)]
      simp

/-- The entry of a well-formed tag stands for this tag. -/
theorem tags_ofTag {tag : Tag} (wellFormed : tag.IsWellFormed) : (ofTag tag).tags = [tag] := by
  obtain ⟨path, colon_free⟩ := Tag.isPlain_iff.mp wellFormed.isPlain
  exact tags_ofTag_eq_iff.mpr ⟨path, .inr colon_free⟩

end Entry
end TagStore
