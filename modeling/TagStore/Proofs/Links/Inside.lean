import TagStore.Proofs.Catalog.Orderly
import TagStore.Proofs.Disk.Follow
import TagStore.Proofs.Links.Path
import TagStore.Proofs.Links.Table
import TagStore.Proofs.Lockfile.Store

/-!
# Links inside of the output directory

A link stays inside of the output directory exactly if its path does not begin with an empty part,
which would make it a path from the root, and leads on more often than back.  Segments have no dots,
so only the value and the identifier can lead back.
-/

namespace TagStore

open Location (IsInside ofParts leadsOn isIdle followAll isAbsolute)

/-! ## Links of tags -/

/-- The texts that name the link of a file, before they are made segments. -/
def Tag.labels (tag : Tag) (id : String) : List String := tag.path ++ tag.value.toList ++ [id]

/-- A tag whose link to a file stays inside of the output directory. -/
structure Tag.IsConfined (tag : Tag) (id : String) : Prop where
  /-- The first segment is not empty. -/
  first : "" ∉ tag.path.head?
  /-- More is named to lead on than to lead back. -/
  on : (tag.labels id).count ".." < (tag.labels id).countP leadsOn

theorem linkSegment_eq_dots_iff {text : String} (count : Nat) :
    linkSegment text = String.ofList (List.replicate count '.') ↔
      text = String.ofList (List.replicate count '.') := by
  constructor
  · exact eq_dots_of_linkSegment_eq count
  · rintro rfl
    rw [← String.toList_inj, toList_linkSegment, String.toList_ofList, List.map_replicate]
    rfl

theorem leadsOn_linkSegment (text : String) : leadsOn (linkSegment text) = leadsOn text := by
  have empty : linkSegment text = "" ↔ text = "" := linkSegment_eq_dots_iff 0
  have dot : linkSegment text = "." ↔ text = "." := linkSegment_eq_dots_iff 1
  have up : linkSegment text = ".." ↔ text = ".." := linkSegment_eq_dots_iff 2
  simp only [leadsOn, isIdle, empty, dot, up, ne_eq]

section Confined

variable {id : String} {tag : Tag}

theorem count_linkNames (id : String) (tag : Tag) :
    (linkNames id tag).count ".." = (tag.labels id).count ".." ∧
      (linkNames id tag).countP leadsOn = (tag.labels id).countP leadsOn := by
  have up (text : String) : linkSegment text = ".." ↔ text = ".." := linkSegment_eq_dots_iff 2
  constructor
  · rw [List.count_eq_countP, List.count_eq_countP, linkNames, List.countP_map]
    exact List.countP_congr fun text _ => by simp [up]
  · rw [linkNames, List.countP_map]
    exact List.countP_congr fun text _ => by simp [leadsOn_linkSegment]

theorem isAbsolute_linkPath_iff (nonempty : tag.path ≠ []) :
    isAbsolute (linkPath id tag) ↔ "" ∈ tag.path.head? := by
  obtain ⟨first, rest, path⟩ := List.exists_cons_of_ne_nil nonempty
  have names : linkNames id tag =
      linkSegment first :: (rest ++ tag.value.toList ++ [id]).map linkSegment := by
    simp [linkNames, path]
  have empty : linkSegment first = "" ↔ first = "" := linkSegment_eq_dots_iff 0
  rw [linkPath_eq, names, path]
  by_cases none : first = ""
  · have absolute : isAbsolute
        (ofParts ("" :: (rest ++ tag.value.toList ++ [id]).map linkSegment)) :=
      Location.isAbsolute_ofParts_empty (by simp)
    rw [empty.mpr none]
    simpa [none] using absolute
  · have relative := Location.isAbsolute_ofParts_cons ((not_congr empty).mpr none)
      (slash_free_linkSegment first) ((rest ++ tag.value.toList ++ [id]).map linkSegment)
    rw [relative]
    simp [none]

theorem up_not_mem_map (dotless : ∀ segment ∈ tag.path, '.' ∉ segment.toList) :
    ".." ∉ tag.path.map linkSegment := by
  intro listed
  obtain ⟨segment, member, same⟩ := List.mem_map.mp listed
  have up : segment = ".." := eq_dots_of_linkSegment_eq 2 same
  exact dotless segment member (by simp [up])

/-- A path that does not begin with an empty segment leads on before anything leads back. -/
theorem countP_path_pos (nonempty : tag.path ≠ [])
    (dotless : ∀ segment ∈ tag.path, '.' ∉ segment.toList) (first : "" ∉ tag.path.head?) :
    0 < (tag.path.map linkSegment).countP leadsOn := by
  obtain ⟨head, rest, path⟩ := List.exists_cons_of_ne_nil nonempty
  have written : head ≠ "" := by
    rintro rfl
    exact first (path ▸ rfl)
  have dotless : '.' ∉ head.toList := dotless head (path ▸ List.mem_cons_self)
  have ne_dot : head ≠ "." := by
    rintro rfl
    exact dotless (by decide)
  have ne_up : head ≠ ".." := by
    rintro rfl
    exact dotless (by decide)
  rw [List.countP_pos_iff]
  refine ⟨linkSegment head, List.mem_map_of_mem (path ▸ List.mem_cons_self), ?_⟩
  rw [leadsOn_linkSegment]
  simp [leadsOn, isIdle, written, ne_dot, ne_up]

/-- The directory of a link is reached from the output directory. -/
theorem exists_followAll_directory (nonempty : tag.path ≠ [])
    (dotless : ∀ segment ∈ tag.path, '.' ∉ segment.toList) (first : "" ∉ tag.path.head?) :
    ∃ there, followAll [] ((tag.path ++ tag.value.toList).map linkSegment) = some there := by
  have never := up_not_mem_map dotless
  obtain ⟨there, found⟩ := Location.exists_followAll never []
  rw [List.map_append]
  cases tag.value with
  | none => exact ⟨there, by rwa [Option.toList_none, List.map_nil, List.append_nil]⟩
  | some value =>
      refine Location.exists_followAll_concat found ?_
      have positive := countP_path_pos nonempty dotless first
      have single : [linkSegment value].count ".." ≤ 1 := List.count_le_length
      rw [List.count_append, List.countP_append, List.count_eq_zero.mpr never]
      omega

/-- A link stays inside exactly if its tag is confined, where segments have no dots. -/
theorem isInside_linkPath_iff (nonempty : tag.path ≠ [])
    (dotless : ∀ segment ∈ tag.path, '.' ∉ segment.toList) :
    IsInside (linkPath id tag) ↔ tag.IsConfined id := by
  have parts : Location.parts (linkPath id tag) = linkNames id tag :=
    Location.parts_ofParts linkNames_ne_nil (slashFree_linkNames id tag)
  have absolute : isAbsolute (linkPath id tag) ↔ "" ∈ tag.path.head? :=
    isAbsolute_linkPath_iff nonempty
  obtain ⟨back, on⟩ := count_linkNames id tag
  constructor
  · intro inside
    obtain ⟨names, written, below⟩ := inside.below
    rw [parts] at below
    have depth := Location.length_followAll below
    have positive := List.length_pos_iff.mpr written
    rw [back, on, List.length_nil] at depth
    exact ⟨fun first => absurd (absolute.mpr first) (by simp [inside.relative]), by omega⟩
  · intro confined
    have more := confined.on
    rw [← back, ← on, linkNames_eq] at more
    obtain ⟨there, directory⟩ := exists_followAll_directory nonempty dotless confined.first
    obtain ⟨names, found⟩ :=
      Location.exists_followAll_concat directory (Nat.le_add_left_of_le (Nat.le_of_lt more))
    have depth := Location.length_followAll found
    refine ⟨Bool.eq_false_iff.mpr fun rooted => confined.first (absolute.mp rooted), names, ?_, ?_⟩
    · rintro rfl
      simp only [List.length_nil] at depth
      omega
    · rw [parts, linkNames_eq, found]

/-- A tag that an edit may name is confined, also if its value leads back. -/
theorem Tag.IsWellFormed.isConfined (wellFormed : tag.IsWellFormed) (word : Tag.Edit.isWord id) :
    tag.IsConfined id := by
  have leads {text : String} (word : Tag.Edit.isWord text) : leadsOn text ∧ text ≠ ".." := by
    have isName := isName_of_isWord word
    exact ⟨by simp [leadsOn, isName.not_isIdle, isName.ne_up], isName.ne_up⟩
  obtain ⟨head, rest, path⟩ := List.exists_cons_of_ne_nil wellFormed.path_ne_nil
  have headWord := wellFormed.segments head (path ▸ List.mem_cons_self)
  constructor
  · rw [path]
    rintro ⟨⟩
    exact absurd headWord (by decide)
  · have never : ".." ∉ tag.path :=
      fun member => (leads (wellFormed.segments _ member)).2 rfl
    have back : tag.value.toList.count ".." ≤ 1 :=
      Nat.le_trans List.count_le_length (by cases tag.value <;> simp)
    have last : [id].count ".." = 0 ∧ [id].countP leadsOn = 1 := by
      simp [leads word]
    have onward : 0 < tag.path.countP leadsOn :=
      List.countP_pos_iff.mpr ⟨head, path ▸ List.mem_cons_self, (leads headWord).1⟩
    rw [labels, List.count_append, List.count_append, List.countP_append, List.countP_append,
      List.count_eq_zero.mpr never, last.1, last.2]
    omega

end Confined

/-! ## Links of catalogs -/

theorem Entry.path_of_mem_tags {entry : Entry} {tag : Tag} (listed : tag ∈ entry.tags) :
    ∃ dotted, tag.path = Text.pieces '.' dotted := by
  cases entry with
  | plain text =>
      rw [List.mem_singleton.mp listed, Tag.ofText]
      split
      · exact ⟨_, rfl⟩
      · exact ⟨_, rfl⟩
  | mapping values =>
      obtain ⟨value, -, rfl⟩ := List.mem_map.mp listed
      exact ⟨_, rfl⟩

/-- The segments of a file's tags have no dots. -/
theorem FileRecord.path_of_mem_tags {file : FileRecord} {tag : Tag} (listed : tag ∈ file.tags) :
    tag.path ≠ [] ∧ ∀ segment ∈ tag.path, '.' ∉ segment.toList := by
  obtain ⟨entry, -, inside⟩ := List.mem_flatMap.mp listed
  obtain ⟨dotted, path⟩ := Entry.path_of_mem_tags inside
  rw [path]
  exact ⟨Text.pieces_ne_nil '.' dotted, fun segment => Text.not_mem_of_mem_pieces⟩

/-- A catalog all of whose tags are confined. -/
def Catalog.IsConfined (catalog : Catalog) : Prop :=
  ∀ id file, catalog.files.get? id = some file → ∀ tag ∈ file.tags, tag.IsConfined id

/-- What the commands themselves make of a catalog is confined. -/
theorem Catalog.IsOrderly.isConfined {catalog : Catalog} (orderly : catalog.IsOrderly) :
    catalog.IsConfined := by
  intro id file found tag listed
  obtain ⟨word, wellFormed⟩ := orderly id file found
  exact (wellFormed tag listed).isConfined word

namespace LinkTable

/-- Every link of a table is below the output directory, wherever that is. -/
def StaysInside (table : LinkTable) : Prop :=
  ∀ stored, ∀ path ∈ table.of stored, IsInside path ∧
    ∀ output here there, followAll here (Location.parts output) = some there →
      ∃ names, names ≠ [] ∧
        followAll here (Location.parts (Location.join output path)) = some (names ++ there)

/-- The links made for a catalog stay inside of the output directory exactly if all tags in it are
confined. -/
theorem staysInside_iff_isConfined {catalog : Catalog} {previous lockfile : Lockfile}
    {output : String} {dry : Bool} {disk after : Disk}
    (made : Lockfile.ofCatalog catalog previous output dry disk = .ok lockfile after) :
    (ofLockfile lockfile).StaysInside ↔ catalog.IsConfined := by
  obtain ⟨hashes, -, locks, -⟩ := Lockfile.ofCatalog_ok made
  constructor
  · intro inside id file found tag listed
    obtain ⟨nonempty, dotless⟩ := FileRecord.path_of_mem_tags listed
    have locked : lockfile.locks.get? id = some (Lockfile.lockOf file (hashes id)) := by
      rw [locks, Index.get?_map, found]
      rfl
    have link : linkPath id tag ∈ (ofLockfile lockfile).of (Lockfile.storedAt (hashes id)) :=
      mem_of_ofLockfile.mpr ⟨id, _, locked, rfl, List.mem_map_of_mem listed⟩
    exact (isInside_linkPath_iff nonempty dotless).mp (inside _ _ link).1
  · intro confined stored path link
    obtain ⟨id, lock, tag, locked, -, listed, rfl⟩ := exists_tag_of_mem_of link
    rw [locks, Index.get?_map, Option.map_eq_some_iff] at locked
    obtain ⟨file, found, rfl⟩ := locked
    obtain ⟨nonempty, dotless⟩ := FileRecord.path_of_mem_tags listed
    have inside := (isInside_linkPath_iff nonempty dotless).mpr (confined id file found tag listed)
    exact ⟨inside, fun _ _ _ found => inside.join found⟩

/-- A catalog with one file, which has one tag. -/
def taggedCatalog (id tag : String) : Catalog := ⟨Index.ofList [(id, ⟨"photo", [.plain tag]⟩)]⟩

/-- A lockfile of one file, with certain tags. -/
def lockedPhoto (id : String) (tags : List Tag) : Lockfile :=
  ⟨Index.ofList [(id, ⟨"photo", "h", tags⟩)]⟩

/-- A link may go back on its way, as long as it stays below the output directory. -/
theorem staysInside_back_and_on :
    Lockfile.ofCatalog (taggedCatalog "1" "a:..") (lockedPhoto "1" []) "." false {} =
        .ok (lockedPhoto "1" [Tag.ofText "a:.."]) {} ∧
      (ofLockfile (lockedPhoto "1" [Tag.ofText "a:.."])).of ".hash/h" = ["a/../1"] ∧
      (ofLockfile (lockedPhoto "1" [Tag.ofText "a:.."])).StaysInside := by
  have made : Lockfile.ofCatalog (taggedCatalog "1" "a:..") (lockedPhoto "1" []) "." false {} =
      .ok (lockedPhoto "1" [Tag.ofText "a:.."]) {} := rfl
  refine ⟨made, by decide +kernel, (staysInside_iff_isConfined made).mpr ?_⟩
  refine Catalog.IsOrderly.isConfined fun id file found => ?_
  have single : (id, file) ∈ [("1", (⟨"photo", [.plain "a:.."]⟩ : FileRecord))] :=
    Index.get?_eq_some_iff.mp found
  cases List.mem_singleton.mp single
  refine ⟨by decide, fun tag listed => ?_⟩
  have same : tag ∈ [Tag.ofText "a:.."] := listed
  cases List.mem_singleton.mp same
  have editable : Tag.Edit.tagOfText? "a:.." = some (Tag.ofText "a:..") := rfl
  exact Tag.Edit.isWellFormed_of_tagOfText? editable

/-- An empty segment in front makes a link from the root, which no output directory goes before.  A
value and an identifier that lead back leave the output directory together. -/
theorem leaves_output :
    Lockfile.ofCatalog (taggedCatalog "1" ".x") (lockedPhoto "1" []) "." false {} =
        .ok (lockedPhoto "1" [Tag.ofText ".x"]) {} ∧
      (ofLockfile (lockedPhoto "1" [Tag.ofText ".x"])).of ".hash/h" = ["/x/1"] ∧
      isAbsolute "/x/1" ∧ Location.join "." "/x/1" = "/x/1" ∧
      Lockfile.ofCatalog (taggedCatalog ".." "a:..") (lockedPhoto ".." []) "." false {} =
        .ok (lockedPhoto ".." [Tag.ofText "a:.."]) {} ∧
      (ofLockfile (lockedPhoto ".." [Tag.ofText "a:.."])).of ".hash/h" = ["a/../.."] ∧
      followAll [] (Location.parts "a/../..") = none := by
  refine ⟨rfl, ?_, ?_, ?_, rfl, ?_, ?_⟩ <;> decide +kernel

end LinkTable
end TagStore
