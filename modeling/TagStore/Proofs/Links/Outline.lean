import TagStore.Proofs.Links.Changes

/-!
# Changes take one table to another

A table of links says which files are stored and what each link points at.  The changes from one
table to another take the outline of the first to that of the second, in whatever order the removals
are carried out and then the links are made.  There are no changes exactly between tables that list
the same, and the changes back remove what the changes there make.
-/

namespace TagStore

/-- Whether the item is a stored file. -/
def Item.isFile : Item → Bool
  | .file _ => true
  | .link .. => false

/-- What is in an output directory, wherever that is. -/
@[ext]
structure Outline where
  /-- Whether a file is stored at a path. -/
  stored : String → Bool
  /-- The stored file that a link at a path points at. -/
  target : String → Option String

namespace Outline

/-- The outline without an item. -/
def remove (outline : Outline) : Item → Outline
  | .file path => { outline with stored := fun other => other ≠ path && outline.stored other }
  | .link _ path =>
    { outline with target := fun other => if other = path then none else outline.target other }

/-- The outline with an item, in place of a link at its path. -/
def create (outline : Outline) : Item → Outline
  | .file path => { outline with stored := fun other => other = path || outline.stored other }
  | .link stored path =>
    { outline with
      target := fun other => if other = path then some stored else outline.target other }

/-- The outline after some files have been stored, then some items removed, then some links made. -/
def carryOut (outline : Outline) (files removals links : List Item) : Outline :=
  links.foldl create (removals.foldl remove (files.foldl create outline))

variable {outline : Outline} {items : List Item} {path : String}

theorem stored_foldl_remove :
    (items.foldl remove outline).stored path =
      (.file path ∉ items && outline.stored path) := by
  induction items generalizing outline with
  | nil => simp
  | cons item rest induction =>
      rw [List.foldl_cons, induction]
      cases item with
      | file other => simp [remove, Bool.and_left_comm, Bool.and_assoc]
      | link => simp [remove]

theorem stored_foldl_create :
    (items.foldl create outline).stored path =
      (.file path ∈ items || outline.stored path) := by
  induction items generalizing outline with
  | nil => simp
  | cons item rest induction =>
      rw [List.foldl_cons, induction]
      cases item with
      | file other => simp [create, Bool.or_left_comm, Bool.or_assoc]
      | link => simp [create]

/-- A path from which a link has been removed has none; the others are as they were. -/
theorem target_foldl_remove :
    (∃ stored, .link stored path ∈ items) ∧ (items.foldl remove outline).target path = none ∨
      (∀ stored, .link stored path ∉ items) ∧
        (items.foldl remove outline).target path = outline.target path := by
  induction items generalizing outline with
  | nil => simp
  | cons item rest induction =>
      rw [List.foldl_cons]
      rcases @induction (outline.remove item) with ⟨⟨stored, later⟩, gone⟩ | ⟨absent, kept⟩
      · exact .inl ⟨⟨stored, List.mem_cons_of_mem _ later⟩, gone⟩
      · rw [kept]
        cases item with
        | file other =>
            refine .inr ⟨fun stored member => absent stored ?_, rfl⟩
            simpa using member
        | link source other =>
            by_cases here : path = other
            · subst here
              exact .inl ⟨⟨source, List.mem_cons_self⟩, if_pos rfl⟩
            · refine .inr ⟨fun stored member => absent stored ?_, if_neg here⟩
              simpa [here] using member

/-- A path at which a link has been made has one of those made there; the others are as they
were. -/
theorem target_foldl_create :
    (∃ stored, .link stored path ∈ items ∧
        (items.foldl create outline).target path = some stored) ∨
      (∀ stored, .link stored path ∉ items) ∧
        (items.foldl create outline).target path = outline.target path := by
  induction items generalizing outline with
  | nil => simp
  | cons item rest induction =>
      rw [List.foldl_cons]
      rcases @induction (outline.create item) with ⟨stored, later, made⟩ | ⟨absent, kept⟩
      · exact .inl ⟨stored, List.mem_cons_of_mem _ later, made⟩
      · rw [kept]
        cases item with
        | file other =>
            refine .inr ⟨fun stored member => absent stored ?_, rfl⟩
            simpa using member
        | link source other =>
            by_cases here : path = other
            · subst here
              exact .inl ⟨source, List.mem_cons_self, if_pos rfl⟩
            · refine .inr ⟨fun stored member => absent stored ?_, if_neg here⟩
              simpa [here] using member

theorem target_foldl_create_of_notMem (absent : ∀ stored, .link stored path ∉ items) :
    (items.foldl create outline).target path = outline.target path := by
  rcases @target_foldl_create outline items path with ⟨stored, made, -⟩ | ⟨-, kept⟩
  · exact absurd made (absent stored)
  · exact kept

end Outline

namespace LinkTable

variable {table previous next : LinkTable} {stored path : String}

/-- No link is listed under two stored files. -/
def IsSingle (table : LinkTable) : Prop :=
  ∀ stored other path, path ∈ table.of stored → path ∈ table.of other → stored = other

/-- What a table says of an output directory. -/
def outline (table : LinkTable) : Outline where
  stored path := table.links.contains path
  target path := (table.links.entries.find? fun entry => entry.2.contains path).map (·.1)

theorem outline_stored_iff : table.outline.stored path = true ↔ path ∈ table.links.keys := by
  simp only [outline, Index.contains, Option.isSome_iff_exists, Index.mem_keys_iff]

theorem mem_of_iff :
    path ∈ table.of stored ↔ ∃ links, (stored, links) ∈ table.links.entries ∧ path ∈ links := by
  simp only [of, ← Index.get?_eq_some_iff]
  cases table.links.get? stored with
  | none => simp
  | some links => simp

theorem isSingle_iff :
    table.IsSingle ↔ ∀ first ∈ table.links.entries, ∀ second ∈ table.links.entries,
      ∀ path ∈ first.2, path ∈ second.2 → first.1 = second.1 := by
  simp only [IsSingle, mem_of_iff]
  constructor
  · intro single first firstIn second secondIn path inFirst inSecond
    exact single _ _ path ⟨_, firstIn, inFirst⟩ ⟨_, secondIn, inSecond⟩
  · rintro listed stored other path ⟨first, firstIn, inFirst⟩ ⟨second, secondIn, inSecond⟩
    exact listed _ firstIn _ secondIn path inFirst inSecond

instance : Decidable table.IsSingle := decidable_of_iff _ isSingle_iff.symm

theorem IsSingle.target_eq_some_iff (single : table.IsSingle) :
    table.outline.target path = some stored ↔ path ∈ table.of stored := by
  rw [outline, Option.map_eq_some_iff]
  constructor
  · rintro ⟨entry, found, rfl⟩
    exact mem_of_iff.mpr
      ⟨entry.2, List.mem_of_find?_eq_some found, by simpa using List.find?_some found⟩
  · intro listed
    obtain ⟨links, member, inside⟩ := mem_of_iff.mp listed
    have some : (table.links.entries.find? fun entry => entry.2.contains path).isSome :=
      List.find?_isSome.mpr ⟨_, member, by simpa using inside⟩
    obtain ⟨entry, found⟩ := Option.isSome_iff_exists.mp some
    have again : path ∈ table.of entry.1 := mem_of_iff.mpr
      ⟨entry.2, List.mem_of_find?_eq_some found, by simpa using List.find?_some found⟩
    exact ⟨entry, found, single _ _ _ again listed⟩

/-- The links of a tidy lockfile have one stored file each to point at. -/
theorem isSingle_ofLockfile {lockfile : Lockfile} (tidy : lockfile.IsTidy) :
    (ofLockfile lockfile).IsSingle := by
  intro stored other path first second
  obtain ⟨hash, rfl⟩ := exists_hash_of_mem_of first
  obtain ⟨further, rfl⟩ := exists_hash_of_mem_of second
  have same := tidy.hash_unique (isEntry_of_mem_of tidy first).2 (isEntry_of_mem_of tidy second).2
  exact congrArg Lockfile.storedAt same

/-! ## Changes in any order -/

section Order

variable {files removals links : List Item}
  (stores : ∀ item, item ∈ files ↔ item ∈ (previous.changes next).created ∧ item.isFile = true)
  (removes : ∀ item, item ∈ removals ↔ item ∈ (previous.changes next).removed)
  (makes : ∀ item, item ∈ links ↔ item ∈ (previous.changes next).created ∧ item.isFile = false)
include stores removes makes

theorem stored_carryOut :
    (previous.outline.carryOut files removals links).stored path = next.outline.stored path := by
  rw [Outline.carryOut, Outline.stored_foldl_create, Outline.stored_foldl_remove,
    Outline.stored_foldl_create, Bool.eq_iff_iff, outline_stored_iff]
  simp only [Bool.or_eq_true, Bool.and_eq_true, decide_eq_true_eq, outline_stored_iff, stores,
    removes, makes, file_mem_created_iff, file_mem_removed_iff, Item.isFile]
  by_cases earlier : path ∈ previous.links.keys
  · simp [earlier]
  · simp [earlier]

theorem target_carryOut (single : previous.IsSingle) (nextSingle : next.IsSingle) :
    (previous.outline.carryOut files removals links).target path = next.outline.target path := by
  have noLinks : ∀ stored, .link stored path ∉ files := by simp [stores, Item.isFile]
  have made : ∀ stored, .link stored path ∈ links ↔
      path ∈ next.of stored ∧ path ∉ previous.of stored := by
    simp [makes, Item.isFile, link_mem_created_iff]
  have gone : ∀ stored, .link stored path ∈ removals ↔
      path ∈ previous.of stored ∧ path ∉ next.of stored := by
    simp [removes, link_mem_removed_iff]
  rw [Outline.carryOut]
  rcases @Outline.target_foldl_create _ links path with ⟨stored, link, new⟩ | ⟨unmade, kept⟩
  · rw [new, eq_comm, nextSingle.target_eq_some_iff]
    exact ((made stored).mp link).1
  · rw [kept]
    have stays : ∀ stored, path ∈ next.of stored → path ∈ previous.of stored := by
      intro stored listed
      by_cases earlier : path ∈ previous.of stored
      · exact earlier
      · exact absurd ((made stored).mpr ⟨listed, earlier⟩) (unmade stored)
    rcases @Outline.target_foldl_remove _ removals path with ⟨⟨stored, link⟩, none⟩ | ⟨safe, kept⟩
    · rw [none, eq_comm, Option.eq_none_iff_forall_ne_some]
      intro other target
      have listed := nextSingle.target_eq_some_iff.mp target
      obtain ⟨earlier, absent⟩ := (gone stored).mp link
      have same := single _ _ _ (stays other listed) earlier
      exact absent (same ▸ listed)
    · rw [kept, Outline.target_foldl_create_of_notMem noLinks]
      apply Option.ext
      intro stored
      rw [single.target_eq_some_iff, nextSingle.target_eq_some_iff]
      refine ⟨fun earlier => ?_, stays stored⟩
      by_cases later : path ∈ next.of stored
      · exact later
      · exact absurd ((gone stored).mpr ⟨earlier, later⟩) (safe stored)

end Order

/-! ## No changes, and the changes back -/

theorem changes_isEmpty_iff :
    (previous.changes next).isEmpty = true ↔
      (∀ stored, stored ∈ previous.links.keys ↔ stored ∈ next.links.keys) ∧
        ∀ stored path, path ∈ previous.of stored ↔ path ∈ next.of stored := by
  rw [Changes.isEmpty, Bool.and_eq_true, List.isEmpty_iff, List.isEmpty_iff,
    List.eq_nil_iff_forall_not_mem, List.eq_nil_iff_forall_not_mem]
  constructor
  · rintro ⟨created, removed⟩
    constructor
    · intro stored
      have new := mt file_mem_created_iff.mpr (created (.file stored))
      have old := mt file_mem_removed_iff.mpr (removed (.file stored))
      grind
    · intro stored path
      have new := mt link_mem_created_iff.mpr (created (.link stored path))
      have old := mt link_mem_removed_iff.mpr (removed (.link stored path))
      grind
  · rintro ⟨keys, paths⟩
    constructor
    · rintro (stored | ⟨stored, path⟩)
      · simp [file_mem_created_iff, keys]
      · simp [link_mem_created_iff, paths]
    · rintro (stored | ⟨stored, path⟩)
      · simp [file_mem_removed_iff, keys]
      · simp [link_mem_removed_iff, paths]

theorem of_eq_nil (absent : stored ∉ table.links.keys) : table.of stored = [] :=
  List.eq_nil_iff_forall_not_mem.mpr fun _ listed => absent (mem_keys_of_mem_of listed)

theorem linkChanges_created_of_new (new : stored ∉ previous.links.keys) :
    (previous.linkChanges next stored).created = (next.of stored).map (Item.link stored) := by
  have all : (next.of stored).filter (fun _ => true) = next.of stored := by
    rw [List.filter_eq_self]
    exact fun _ _ => rfl
  simp [linkChanges, Changes.between, of_eq_nil new, all]

theorem linkChanges_created_of_gone (gone : stored ∉ next.links.keys) :
    (previous.linkChanges next stored).created = [] := by
  simp [linkChanges, Changes.between, of_eq_nil gone]

/-- What is made to stored files in both tables is the same from the sides of both. -/
theorem flatMap_linkChanges_perm :
    ((next.links.keys.filter fun key => previous.links.keys.contains key).flatMap
        fun key => (previous.linkChanges next key).created).Perm
      (previous.links.keys.flatMap fun key => (previous.linkChanges next key).created) := by
  have both : (next.links.keys.filter fun key => previous.links.keys.contains key).Perm
      (previous.links.keys.filter fun key => next.links.keys.contains key) := by
    rw [List.perm_ext_iff_of_nodup (next.links.nodup_keys.filter _)
      (previous.links.nodup_keys.filter _)]
    simp [and_comm]
  have split := List.filter_append_perm (fun key => next.links.keys.contains key)
    previous.links.keys
  have gone : ((previous.links.keys.filter fun key => !next.links.keys.contains key).flatMap
      fun key => (previous.linkChanges next key).created) = [] := by
    rw [List.flatMap_eq_nil_iff]
    intro key member
    exact linkChanges_created_of_gone (by simpa using (List.mem_filter.mp member).2)
  have whole := split.flatMap_right fun key => (previous.linkChanges next key).created
  rw [List.flatMap_append, gone, List.append_nil] at whole
  exact (both.flatMap_right _).trans whole

/-- What is made is, in some order, what the changes back remove. -/
theorem changes_created_perm (previous next : LinkTable) :
    (previous.changes next).created.Perm (next.changes previous).removed := by
  have split := List.filter_append_perm (fun key => previous.links.keys.contains key)
    next.links.keys
  have whole := split.flatMap_right fun key => (previous.linkChanges next key).created
  rw [List.flatMap_append] at whole
  have new : ((next.links.keys.filter fun key => !previous.links.keys.contains key).flatMap
        fun key => (previous.linkChanges next key).created) =
      (next.links.keys.filter fun key => !previous.links.keys.contains key).flatMap
        fun key => (next.of key).map (Item.link key) := by
    rw [List.flatMap_def, List.flatMap_def]
    refine congrArg _ (List.map_congr_left fun key member => ?_)
    exact linkChanges_created_of_new (by simpa using (List.mem_filter.mp member).2)
  rw [new] at whole
  simp only [changes, storedChanges, Changes.between, List.flatMap_map, List.append_assoc]
  -- To one stored file, what is made is by definition what the changes back remove.
  refine .append_left _ (whole.symm.trans ?_)
  exact List.perm_append_comm.trans (.append_left _ flatMap_linkChanges_perm)

/-! ## Changes and outlines -/

/-- Between tables that list no link under two stored files, the changes take one outline to the
other, in whatever order they are carried out.  They are empty exactly if the tables list the same,
and what they make is what the changes back remove.  The tables of tidy lockfiles list no link under
two stored files. -/
theorem changes_between_outlines :
    (∀ previous next : LinkTable, previous.IsSingle → next.IsSingle →
      ∀ files removals links : List Item,
        files.Perm ((previous.changes next).created.filter fun item => item.isFile) →
        removals.Perm (previous.changes next).removed →
        links.Perm ((previous.changes next).created.filter fun item => !item.isFile) →
        previous.outline.carryOut files removals links = next.outline) ∧
    (∀ previous next : LinkTable, (previous.changes next).isEmpty = true ↔
      (∀ stored, stored ∈ previous.links.keys ↔ stored ∈ next.links.keys) ∧
        ∀ stored path, path ∈ previous.of stored ↔ path ∈ next.of stored) ∧
    (∀ previous next : LinkTable,
      (previous.changes next).created.Perm (next.changes previous).removed ∧
        (previous.changes next).removed.Perm (next.changes previous).created) ∧
    ∀ lockfile : Lockfile, lockfile.IsTidy → (ofLockfile lockfile).IsSingle := by
  refine ⟨?_, fun _ _ => changes_isEmpty_iff, fun previous next => ?_,
    fun _ => isSingle_ofLockfile⟩
  · intro previous next single nextSingle files removals links stores removes makes
    have inFiles : ∀ item, item ∈ files ↔
        item ∈ (previous.changes next).created ∧ item.isFile = true := by
      simp [stores.mem_iff]
    have inRemovals : ∀ item, item ∈ removals ↔ item ∈ (previous.changes next).removed := by
      simp [removes.mem_iff]
    have inLinks : ∀ item, item ∈ links ↔
        item ∈ (previous.changes next).created ∧ item.isFile = false := by
      simp [makes.mem_iff]
    exact Outline.ext (funext fun _ => stored_carryOut inFiles inRemovals inLinks)
      (funext fun _ => target_carryOut inFiles inRemovals inLinks single nextSingle)
  · exact ⟨changes_created_perm previous next, (changes_created_perm next previous).symm⟩

/-- A stored file goes and its only link moves to another one, whose own links are made anew or
go. -/
theorem changes_move_link :
    let previous : LinkTable :=
      ⟨.ofList [(".hash/0a", ["cat/a"]), (".hash/0b", ["cat/b", "dog/b"])]⟩
    let next : LinkTable := ⟨.ofList [(".hash/0b", ["cat/a", "cat/b", "fox/b"])]⟩
    previous.IsSingle ∧ next.IsSingle ∧
      previous.outline.carryOut []
        [.link ".hash/0b" "dog/b", .link ".hash/0a" "cat/a", .file ".hash/0a"]
        [.link ".hash/0b" "fox/b", .link ".hash/0b" "cat/a"] = next.outline := by
  intro previous next
  have single : previous.IsSingle := by decide +kernel
  have nextSingle : next.IsSingle := by decide +kernel
  exact ⟨single, nextSingle,
    changes_between_outlines.1 previous next single nextSingle _ _ _
      (by decide +kernel) (by decide +kernel) (by decide +kernel)⟩

end LinkTable
end TagStore
