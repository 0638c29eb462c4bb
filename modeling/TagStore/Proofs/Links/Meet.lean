import TagStore.Proofs.Lockfile.Reread
import Mathlib.Data.List.Nodup

/-!
# Tags whose links meet

The link of a tag stands in directories named after the segments and the value of the tag, in a row,
and with other characters in place of those that separate directories.  So the links of two tags of
a file meet exactly if their tags differ in nothing but that: which text is the value, and which
characters have been replaced.
-/

namespace TagStore

/-- The names of the directories in which the links of a tag stand. -/
def Tag.directories (tag : Tag) : List String := (tag.path ++ tag.value.toList).map linkSegment

/-- A tag without characters that separate directories. -/
def Tag.IsUnseparated (tag : Tag) : Prop :=
  ∀ text ∈ tag.path ++ tag.value.toList, '/' ∉ text.toList ∧ '\\' ∉ text.toList

variable {tag other : Tag} {lock : Lock} {id : String}

/-- The links of two tags of a file meet exactly if they stand in the same directories. -/
theorem linkPath_eq_iff :
    linkPath id tag = linkPath id other ↔ tag.directories = other.directories := by
  constructor
  · intro same
    have names := Lockfile.linkNames_eq_of_linkPath_eq same
    rw [linkNames_eq, linkNames_eq] at names
    exact (List.append_inj' names rfl).1
  · intro same
    rw [Tag.directories, Tag.directories] at same
    rw [linkPath_eq, linkPath_eq, linkNames_eq, linkNames_eq, same]

theorem Tag.IsUnseparated.directories_eq (unseparated : tag.IsUnseparated) :
    tag.directories = tag.path ++ tag.value.toList := by
  have kept : ∀ text ∈ tag.path ++ tag.value.toList, linkSegment text = text :=
    fun text listed =>
      linkSegment_of_not_mem (unseparated text listed).1 (unseparated text listed).2
  rw [directories, List.map_congr_left kept, List.map_id']

/-- Tags with and without a value apart, nothing but replaced characters makes links meet. -/
theorem Tag.eq_of_directories_eq (unseparated : tag.IsUnseparated)
    (otherUnseparated : other.IsUnseparated) (alike : tag.value.isSome = other.value.isSome)
    (same : tag.directories = other.directories) : tag = other := by
  rw [unseparated.directories_eq, otherUnseparated.directories_eq] at same
  rcases tag with ⟨path, value⟩
  rcases other with ⟨further, content⟩
  cases value with
  | none =>
      cases content with
      | none => simpa using same
      | some content => cases alike
  | some value =>
      cases content with
      | none => cases alike
      | some content =>
          obtain ⟨paths, values⟩ := List.append_inj' same rfl
          cases paths
          cases values
          rfl

/-- If a file has no tag twice, its links are different exactly if no two of its tags name the same
directories.  That is so if its tags have no separating characters and all of them have a value or
none has. -/
theorem nodup_paths_iff (id : String) (distinct : lock.tags.Nodup) :
    ((LinkTable.paths lock id).Nodup ↔ ∀ tag ∈ lock.tags, ∀ other ∈ lock.tags,
        tag.directories = other.directories → tag = other) ∧
      ((∀ tag ∈ lock.tags, tag.IsUnseparated) →
        (∀ tag ∈ lock.tags, ∀ other ∈ lock.tags, tag.value.isSome = other.value.isSome) →
        (LinkTable.paths lock id).Nodup) := by
  have paths : (LinkTable.paths lock id).Nodup ↔ ∀ tag ∈ lock.tags, ∀ other ∈ lock.tags,
      tag.directories = other.directories → tag = other := by
    rw [LinkTable.paths, List.nodup_map_iff_inj_on distinct]
    simp only [linkPath_eq_iff]
  refine ⟨paths, fun unseparated alike => paths.mpr fun tag listed other further same => ?_⟩
  exact Tag.eq_of_directories_eq (unseparated tag listed) (unseparated other further)
    (alike tag listed other further) same

/-- A lock with the tags of some texts. -/
def lockWith (texts : List String) : Lock := ⟨"photo", "h", texts.map Tag.ofText⟩

/-- Tags that share segments, values and replaced characters can still have different links. -/
theorem nodup_paths_four :
    let lock := lockWith ["a.b", "a:c", "b:a", "path:a/b"]
    lock.tags.Nodup ∧ LinkTable.paths lock "1" = ["a/b/1", "a/c/1", "b/a/1", "path/a_b/1"] ∧
      (LinkTable.paths lock "1").Nodup := by
  intro lock
  have distinct : lock.tags.Nodup := by decide
  have paths : LinkTable.paths lock "1" = ["a/b/1", "a/c/1", "b/a/1", "path/a_b/1"] := by cbv
  exact ⟨distinct, paths, (nodup_paths_iff "1" distinct).1.mpr (by decide +kernel)⟩

/-- A segment and a value name the same directory, and so do texts with different separators. -/
theorem links_meet :
    (lockWith ["a.b", "a:b"]).tags.Nodup ∧
      LinkTable.paths (lockWith ["a.b", "a:b"]) "1" = ["a/b/1", "a/b/1"] ∧
      (lockWith ["a:b/c", "a:b\\c", "a:b_c"]).tags.Nodup ∧
      LinkTable.paths (lockWith ["a:b/c", "a:b\\c", "a:b_c"]) "1" =
        ["a/b_c/1", "a/b_c/1", "a/b_c/1"] :=
  ⟨by decide, by cbv, by decide, by cbv⟩

end TagStore
