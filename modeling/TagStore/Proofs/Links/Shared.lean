import TagStore.Proofs.Links.Outline

/-!
# Contents shared by several files

Files with the same content have one stored file.  The changes between two lockfiles list it only
if no file had this content before or none has it any more, and then once.  They list a link only if
no file with the same content had it before, or has it any more.
-/

namespace TagStore

/-- A path is that of a link to the content with a digest, from a tag of some file. -/
def Lockfile.HasLink (lockfile : Lockfile) (hash path : String) : Prop :=
  ∃ id lock, lockfile.locks.get? id = some lock ∧ lock.hash = hash ∧
    path ∈ LinkTable.paths lock id

namespace LinkTable

open Lockfile (storedAt)

/-! ## Once in a list -/

theorem file_notMem_linkChanges_created (previous next : LinkTable) (stored other : String) :
    Item.file stored ∉ (previous.linkChanges next other).created := by
  simp [linkChanges]

theorem nodup_storedChanges_created (previous next : LinkTable) :
    (previous.storedChanges next).created.Nodup :=
  next.links.nodup_keys.filter _

/-- A stored file is created once. -/
theorem count_file_created_le_one (previous next : LinkTable) (stored : String) :
    (previous.changes next).created.count (.file stored) ≤ 1 := by
  have files : ((previous.storedChanges next).created.map Item.file).Nodup :=
    List.Pairwise.map Item.file (fun _ _ different same => different (Item.file.inj same))
      (nodup_storedChanges_created previous next)
  have links : Item.file stored ∉
      (next.links.keys.map (previous.linkChanges next)).flatMap (·.created) := by
    simp [file_notMem_linkChanges_created]
  rw [changes, List.count_append, List.count_eq_zero_of_not_mem links, Nat.add_zero]
  exact List.nodup_iff_count.mp files _

theorem count_file_removed_le_one (previous next : LinkTable) (stored : String) :
    (previous.changes next).removed.count (.file stored) ≤ 1 := by
  rw [← (changes_created_perm next previous).count_eq]
  exact count_file_created_le_one next previous stored

/-- What is created is not removed. -/
theorem notMem_removed_of_mem_created {previous next : LinkTable} {item : Item}
    (created : item ∈ (previous.changes next).created) :
    item ∉ (previous.changes next).removed := by
  intro removed
  cases item with
  | file stored =>
      exact (file_mem_created_iff.mp created).2 (file_mem_removed_iff.mp removed).1
  | link stored path =>
      exact (link_mem_created_iff.mp created).2 (link_mem_removed_iff.mp removed).1

/-! ## Between lockfiles -/

variable {previous next : Lockfile} {hash path : String}

theorem mem_of_iff_hasLink {lockfile : Lockfile} :
    path ∈ (ofLockfile lockfile).of (storedAt hash) ↔ lockfile.HasLink hash path :=
  mem_of_ofLockfile

theorem storedAt_mem_removed_iff :
    .file (storedAt hash) ∈ (changesBetween previous next).removed ↔
      previous.Has hash ∧ ¬next.Has hash := by
  rw [file_mem_removed_iff, storedAt_mem_keys_iff, storedAt_mem_keys_iff]

theorem storedAt_mem_created_iff :
    .file (storedAt hash) ∈ (changesBetween previous next).created ↔
      next.Has hash ∧ ¬previous.Has hash := by
  rw [file_mem_created_iff, storedAt_mem_keys_iff, storedAt_mem_keys_iff]

/-- A content is not removed as long as some file has it. -/
theorem notMem_removed_of_get? {id : String} {lock : Lock}
    (found : next.locks.get? id = some lock) :
    .file (storedAt lock.hash) ∉ (changesBetween previous next).removed := by
  intro removed
  exact (storedAt_mem_removed_iff.mp removed).2 ⟨id, lock, found, rfl⟩

/-- The changes between two lockfiles remove the contents and the links that only the first one has,
and create those that only the second one has.  They list each content once and nothing in both
lists.  So a content stays if one of several files with it is removed or gets other tags. -/
theorem changes_with_shared_contents (previous next : Lockfile) :
    (∀ hash,
      (.file (storedAt hash) ∈ (changesBetween previous next).removed ↔
        previous.Has hash ∧ ¬next.Has hash) ∧
      (.file (storedAt hash) ∈ (changesBetween previous next).created ↔
        next.Has hash ∧ ¬previous.Has hash) ∧
      (changesBetween previous next).removed.count (.file (storedAt hash)) ≤ 1 ∧
      (changesBetween previous next).created.count (.file (storedAt hash)) ≤ 1) ∧
    (∀ hash path,
      (.link (storedAt hash) path ∈ (changesBetween previous next).created ↔
        next.HasLink hash path ∧ ¬previous.HasLink hash path) ∧
      (.link (storedAt hash) path ∈ (changesBetween previous next).removed ↔
        previous.HasLink hash path ∧ ¬next.HasLink hash path)) ∧
    (∀ item ∈ (changesBetween previous next).created,
      item ∉ (changesBetween previous next).removed) ∧
    ∀ id other lock twin, previous.locks.get? id = some lock →
      previous.locks.get? other = some twin → other ≠ id → twin.hash = lock.hash →
      .file (storedAt lock.hash) ∉ (changesBetween previous ⟨previous.locks.erase id⟩).removed ∧
      ∀ tags, .file (storedAt lock.hash) ∉
        (changesBetween previous ⟨previous.locks.insert id { lock with tags }⟩).removed := by
  refine ⟨fun hash => ?_, fun hash path => ?_, fun item => notMem_removed_of_mem_created, ?_⟩
  · exact ⟨storedAt_mem_removed_iff, storedAt_mem_created_iff, count_file_removed_le_one _ _ _,
      count_file_created_le_one _ _ _⟩
  · rw [link_mem_created_iff, link_mem_removed_iff, mem_of_iff_hasLink, mem_of_iff_hasLink]
    exact ⟨Iff.rfl, Iff.rfl⟩
  · intro id other lock twin _ found different same
    have stays {next : Lockfile} (kept : next.locks.get? other = some twin) :
        .file (storedAt lock.hash) ∉ (changesBetween previous next).removed := by
      rw [← same]
      exact notMem_removed_of_get? kept
    refine ⟨stays ?_, fun tags => stays ?_⟩
    · rw [Index.get?_erase, if_neg different, found]
    · rw [Index.get?_insert, if_neg different, found]

/-- Of two files with the same content the one with tags goes.  Its link is removed, but the content
stays for the other one, which has no tags. -/
theorem changes_without_twin :
    let lock : Lock := ⟨"cat.png", "cafe", [⟨["animal"], some "cat"⟩]⟩
    let twin : Lock := ⟨"copy.png", "cafe", []⟩
    let previous : Lockfile := ⟨.ofList [("1", lock), ("2", twin)]⟩
    let changes := changesBetween previous ⟨previous.locks.erase "1"⟩
    previous.locks.get? "1" = some lock ∧ previous.locks.get? "2" = some twin ∧ "2" ≠ "1" ∧
      twin.hash = lock.hash ∧ changes.removed = [.link ".hash/cafe" "animal/cat/1"] ∧
      .file (storedAt lock.hash) ∉ changes.removed := by
  intro lock twin previous changes
  have found : previous.locks.get? "1" = some lock := by decide +kernel
  have other : previous.locks.get? "2" = some twin := by decide +kernel
  obtain ⟨-, -, -, shared⟩ := changes_with_shared_contents previous ⟨previous.locks.erase "1"⟩
  obtain ⟨stays, -⟩ := shared "1" "2" lock twin found other (by decide) rfl
  exact ⟨found, other, by decide, rfl, by decide +kernel, stays⟩

end LinkTable
end TagStore
