import TagStore.Links.Basic
import TagStore.Proofs.Disk.Sound
import TagStore.Proofs.Tag.Text

/-!
# Paths of links

The path of a link is put together from names, if the tag is one that an edit may name and its value
is not the name of a directory that is always there.  It never leads into the store, and it ends in
the identifier of the file.
-/

namespace TagStore

open Location (IsName ofParts)

/-- A tag whose value, if there is one, can name a directory of its own. -/
structure Tag.IsLinkable (tag : Tag) : Prop extends tag.IsWellFormed where
  value_ne_dot : tag.value ≠ some "."
  value_ne_up : tag.value ≠ some ".."

/-! ## Segments -/

theorem isName_of_isWord {text : String} (word : Tag.Edit.isWord text) : IsName text := by
  have apart {other : String} (outside : ¬Tag.Edit.isWord other) : text ≠ other := by
    rintro rfl
    exact outside word
  exact ⟨apart (by decide), apart (by decide), apart (by decide),
    Tag.not_mem_of_isWord word (by decide)⟩

/-- A character of a link segment. -/
def linkChar (c : Char) : Char := if c = '/' || c = '\\' then '_' else c

theorem toList_linkSegment (text : String) :
    (linkSegment text).toList = text.toList.map linkChar := by
  simp [linkSegment, linkChar]

theorem linkSegment_of_not_mem {text : String} (slash : '/' ∉ text.toList)
    (backslash : '\\' ∉ text.toList) : linkSegment text = text := by
  have kept (c : Char) (member : c ∈ text.toList) : linkChar c = c := by
    have notSlash : c ≠ '/' := by
      rintro rfl
      exact slash member
    have notBackslash : c ≠ '\\' := by
      rintro rfl
      exact backslash member
    simp [linkChar, notSlash, notBackslash]
  rw [← String.toList_inj, toList_linkSegment, List.map_congr_left kept, List.map_id']

theorem linkSegment_of_isWord {text : String} (word : Tag.Edit.isWord text) :
    linkSegment text = text :=
  linkSegment_of_not_mem (Tag.not_mem_of_isWord word (by decide))
    (Tag.not_mem_of_isWord word (by decide))

theorem linkChar_eq_dot {c : Char} (same : linkChar c = '.') : c = '.' := by
  rw [linkChar] at same
  split at same
  · cases same
  · exact same

/-- A segment of dots comes from a text of dots. -/
theorem eq_dots_of_linkSegment_eq {text : String} (count : Nat)
    (same : linkSegment text = String.ofList (List.replicate count '.')) :
    text = String.ofList (List.replicate count '.') := by
  rw [← String.toList_inj, String.toList_ofList] at same ⊢
  rw [toList_linkSegment, List.eq_replicate_iff, List.length_map] at same
  rw [List.eq_replicate_iff]
  refine ⟨same.1, fun c member => ?_⟩
  exact linkChar_eq_dot (same.2 _ (List.mem_map_of_mem member))

theorem slash_free_linkSegment (text : String) : '/' ∉ (linkSegment text).toList := by
  rw [toList_linkSegment]
  intro member
  obtain ⟨c, _, same⟩ := List.mem_map.mp member
  rw [linkChar] at same
  split at same
  · cases same
  · rename_i other
    simp [same] at other

theorem isName_linkSegment {text : String} (nonempty : text ≠ "") (ne_dot : text ≠ ".")
    (ne_up : text ≠ "..") : IsName (linkSegment text) where
  ne_empty := fun same => nonempty (eq_dots_of_linkSegment_eq 0 same)
  ne_dot := fun same => ne_dot (eq_dots_of_linkSegment_eq 1 same)
  ne_up := fun same => ne_up (eq_dots_of_linkSegment_eq 2 same)
  slash_free := slash_free_linkSegment text

/-! ## Names -/

/-- The names of a link. -/
def linkNames (id : String) (tag : Tag) : List String :=
  (tag.path ++ tag.value.toList ++ [id]).map linkSegment

theorem linkPath_eq (id : String) (tag : Tag) : linkPath id tag = ofParts (linkNames id tag) := rfl

theorem linkNames_eq (id : String) (tag : Tag) :
    linkNames id tag = (tag.path ++ tag.value.toList).map linkSegment ++ [linkSegment id] :=
  List.map_append

theorem linkSegment_mem_linkNames (id : String) (tag : Tag) :
    linkSegment id ∈ linkNames id tag := by
  rw [linkNames_eq]
  exact List.mem_append_right _ (List.mem_singleton.mpr rfl)

theorem endsIn_linkPath (id : String) (tag : Tag) :
    Location.EndsIn (linkPath id tag) (linkSegment id) := by
  rw [linkPath_eq, linkNames_eq]
  exact Location.endsIn_ofParts_concat _ _

theorem slashFree_linkNames (id : String) (tag : Tag) : Location.SlashFree (linkNames id tag) := by
  intro name listed
  obtain ⟨part, -, rfl⟩ := List.mem_map.mp listed
  exact slash_free_linkSegment part

variable {id : String} {tag : Tag}

theorem isName_of_mem_linkNames (word : Tag.Edit.isWord id) (linkable : tag.IsLinkable) :
    ∀ name ∈ linkNames id tag, IsName name := by
  intro name listed
  obtain ⟨part, member, rfl⟩ := List.mem_map.mp listed
  simp only [List.mem_append, Option.mem_toList, List.mem_singleton] at member
  rcases member with (segment | value) | rfl
  · have segment := linkable.segments part segment
    rw [linkSegment_of_isWord segment]
    exact isName_of_isWord segment
  · have isValue := linkable.value part value
    rw [Tag.Edit.isValue, Bool.and_eq_true, decide_eq_true_eq] at isValue
    apply isName_linkSegment isValue.1
    · rintro rfl
      exact linkable.value_ne_dot value
    · rintro rfl
      exact linkable.value_ne_up value
  · rw [linkSegment_of_isWord word]
    exact isName_of_isWord word

theorem linkNames_ne_nil : linkNames id tag ≠ [] := by simp [linkNames]

theorem mem_linkNames_of_mem_namesOfEntry {name : String}
    (member : name ∈ Location.namesOfEntry (linkPath id tag)) : name ∈ linkNames id tag := by
  rw [linkPath_eq, Location.namesOfEntry_ofParts linkNames_ne_nil (slashFree_linkNames id tag)]
    at member
  exact (List.mem_filter.mp member).1

/-- A link stands in a directory other than the store. -/
theorem linkNames_outside (linkable : tag.IsLinkable) :
    (linkNames id tag).head? ≠ some Disk.storeName ∧ (linkNames id tag).dropLast ≠ [] := by
  obtain ⟨first, rest, split⟩ := List.exists_cons_of_ne_nil linkable.path_ne_nil
  have word := linkable.segments first (split ▸ List.mem_cons_self)
  constructor
  · simp only [linkNames, split, List.cons_append, List.map_cons, List.head?_cons, ne_eq,
      Option.some.injEq, linkSegment_of_isWord word]
    rintro rfl
    revert word
    decide
  · rw [linkNames_eq, List.dropLast_concat, split]
    simp

theorem namesOfEntry_linkPath (word : Tag.Edit.isWord id) (linkable : tag.IsLinkable) :
    Location.namesOfEntry (linkPath id tag) = linkNames id tag :=
  Location.namesOfEntry_of_isName linkNames_ne_nil (isName_of_mem_linkNames word linkable)

theorem isEntry_linkPath (word : Tag.Edit.isWord id) (linkable : tag.IsLinkable) :
    Location.IsEntry (linkPath id tag) :=
  Location.isEntry_ofParts linkNames_ne_nil (isName_of_mem_linkNames word linkable)

/-- Links of different files have different paths. -/
theorem id_eq_of_linkNames_eq {other : String} {further : Tag} (word : Tag.Edit.isWord id)
    (otherWord : Tag.Edit.isWord other) (same : linkNames id tag = linkNames other further) :
    id = other := by
  rw [linkNames_eq, linkNames_eq, linkSegment_of_isWord word, linkSegment_of_isWord otherWord]
    at same
  exact List.head_eq_of_cons_eq (List.append_inj' same rfl).2

end TagStore
