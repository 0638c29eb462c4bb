import TagStore.Links.Changes
import TagStore.Proofs.Index

/-!
# Tables of links and their changes

The table of a lockfile lists, for each digest in it, the links of all files with this digest.  The
changes between two tables list what is in one of them and not in the other.
-/

namespace TagStore

theorem Lockfile.storedAt_inj {first second : String}
    (same : Lockfile.storedAt first = Lockfile.storedAt second) : first = second := by
  have texts := congrArg String.toList same
  rw [storedAt, storedAt, String.toList_append, String.toList_append] at texts
  exact String.toList_inj.mp (List.append_cancel_left texts)

namespace LinkTable

/-! ## The table of a lockfile -/

theorem of_extend (table : LinkTable) (stored other : String) (paths : List String) :
    (table.extend stored paths).of other =
      if other = stored then table.of stored ++ paths else table.of other := by
  rw [of, extend, Index.get?_insert]
  split
  · rfl
  · rfl

theorem mem_keys_extend (table : LinkTable) (stored other : String) (paths : List String) :
    other ∈ (table.extend stored paths).links.keys ↔ other = stored ∨ other ∈ table.links.keys := by
  simp only [Index.mem_keys_iff, extend, Index.get?_insert]
  by_cases same : other = stored
  · simp [same]
  · simp [same]

/-- The table with further locks. -/
def withLocks (table : LinkTable) (locks : List (String × Lock)) : LinkTable :=
  locks.foldl (fun table (id, lock) => table.extend (Lockfile.storedAt lock.hash) (paths lock id))
    table

theorem mem_of_withLocks {table : LinkTable} {locks : List (String × Lock)} {stored path : String} :
    path ∈ (table.withLocks locks).of stored ↔ path ∈ table.of stored ∨
      ∃ entry ∈ locks, Lockfile.storedAt entry.2.hash = stored ∧ path ∈ paths entry.2 entry.1 := by
  induction locks generalizing table with
  | nil => simp [withLocks]
  | cons entry rest induction =>
      have step : table.withLocks (entry :: rest) =
        (table.extend (Lockfile.storedAt entry.2.hash) (paths entry.2 entry.1)).withLocks rest :=
          rfl
      rw [step, induction, of_extend]
      by_cases same : stored = Lockfile.storedAt entry.2.hash
      · simp [same, or_assoc]
      · simp [same, Ne.symm same]

theorem mem_keys_withLocks {table : LinkTable} {locks : List (String × Lock)} {stored : String} :
    stored ∈ (table.withLocks locks).links.keys ↔ stored ∈ table.links.keys ∨
      ∃ entry ∈ locks, Lockfile.storedAt entry.2.hash = stored := by
  induction locks generalizing table with
  | nil => simp [withLocks]
  | cons entry rest induction =>
      have step : table.withLocks (entry :: rest) =
        (table.extend (Lockfile.storedAt entry.2.hash) (paths entry.2 entry.1)).withLocks rest :=
          rfl
      rw [step, induction, mem_keys_extend]
      simp only [List.mem_cons, exists_eq_or_imp]
      rw [or_comm (a := stored = _), or_assoc, eq_comm]

/-- The links to a stored file are those of the files with its digest. -/
theorem mem_of_ofLockfile {lockfile : Lockfile} {hash path : String} :
    path ∈ (ofLockfile lockfile).of (Lockfile.storedAt hash) ↔
      ∃ id lock, lockfile.locks.get? id = some lock ∧ lock.hash = hash ∧ path ∈ paths lock id := by
  rw [show ofLockfile lockfile = ({} : LinkTable).withLocks lockfile.locks.entries from rfl,
    mem_of_withLocks]
  constructor
  · rintro (none | ⟨⟨id, lock⟩, member, same, listed⟩)
    · cases none
    · exact ⟨id, lock, Index.get?_eq_some_iff.mpr member, Lockfile.storedAt_inj same, listed⟩
  · rintro ⟨id, lock, found, rfl, listed⟩
    exact .inr ⟨(id, lock), Index.get?_eq_some_iff.mp found, rfl, listed⟩

/-- The stored files are those with a digest in the lockfile. -/
theorem mem_keys_ofLockfile {lockfile : Lockfile} {stored : String} :
    stored ∈ (ofLockfile lockfile).links.keys ↔
      ∃ id lock, lockfile.locks.get? id = some lock ∧ Lockfile.storedAt lock.hash = stored := by
  rw [show ofLockfile lockfile = ({} : LinkTable).withLocks lockfile.locks.entries from rfl,
    mem_keys_withLocks]
  constructor
  · rintro (none | ⟨⟨id, lock⟩, member, same⟩)
    · cases none
    · exact ⟨id, lock, Index.get?_eq_some_iff.mpr member, same⟩
  · rintro ⟨id, lock, found, same⟩
    exact .inr ⟨(id, lock), Index.get?_eq_some_iff.mp found, same⟩

theorem mem_keys_of_mem_of {table : LinkTable} {stored path : String}
    (listed : path ∈ table.of stored) : stored ∈ table.links.keys := by
  rw [of] at listed
  cases found : table.links.get? stored with
  | none =>
      rw [found] at listed
      cases listed
  | some links => exact Index.mem_keys_iff.mpr ⟨links, found⟩

/-- A link of the table of a lockfile leads from a tag of a file that is recorded to what is stored
for this file. -/
theorem exists_tag_of_mem_of {lockfile : Lockfile} {stored path : String}
    (listed : path ∈ (ofLockfile lockfile).of stored) :
    ∃ id lock tag, lockfile.locks.get? id = some lock ∧ stored = Lockfile.storedAt lock.hash ∧
      tag ∈ lock.tags ∧ path = linkPath id tag := by
  obtain ⟨_, _, _, rfl⟩ := mem_keys_ofLockfile.mp (mem_keys_of_mem_of listed)
  obtain ⟨id, lock, found, same, among⟩ := mem_of_ofLockfile.mp listed
  obtain ⟨tag, member, rfl⟩ := List.mem_map.mp among
  exact ⟨id, lock, tag, found, same ▸ rfl, member, rfl⟩

/-! ## Changes -/

variable {previous next : LinkTable} {stored path : String}

theorem file_mem_created_iff :
    Item.file stored ∈ (previous.changes next).created ↔
      stored ∈ next.links.keys ∧ stored ∉ previous.links.keys := by
  simp [changes, storedChanges, linkChanges, Changes.between]

theorem file_mem_removed_iff :
    Item.file stored ∈ (previous.changes next).removed ↔
      stored ∈ previous.links.keys ∧ stored ∉ next.links.keys := by
  simp [changes, storedChanges, linkChanges, Changes.between]

theorem link_mem_linkChanges_created_iff {other : String} :
    Item.link stored path ∈ (previous.linkChanges next other).created ↔
      other = stored ∧ path ∈ next.of other ∧ path ∉ previous.of other := by
  simp only [linkChanges, Changes.between, List.mem_map, Item.link.injEq, List.mem_filter]
  constructor
  · rintro ⟨_, ⟨member, absent⟩, rfl, rfl⟩
    exact ⟨rfl, member, by simpa using absent⟩
  · rintro ⟨rfl, member, absent⟩
    exact ⟨path, ⟨member, by simpa using absent⟩, rfl, rfl⟩

theorem link_mem_linkChanges_removed_iff {other : String} :
    Item.link stored path ∈ (previous.linkChanges next other).removed ↔
      other = stored ∧ path ∈ previous.of other ∧ path ∉ next.of other :=
  @link_mem_linkChanges_created_iff next previous stored path other

/-- The links made are those that were not there. -/
theorem link_mem_created_iff :
    Item.link stored path ∈ (previous.changes next).created ↔
      path ∈ next.of stored ∧ path ∉ previous.of stored := by
  simp only [changes, List.mem_append, List.mem_map, List.mem_flatMap]
  constructor
  · rintro (⟨_, _, file⟩ | ⟨_, ⟨other, _, rfl⟩, made⟩)
    · cases file
    · obtain ⟨rfl, both⟩ := link_mem_linkChanges_created_iff.mp made
      exact both
  · rintro ⟨later, absent⟩
    exact .inr ⟨_, ⟨stored, mem_keys_of_mem_of later, rfl⟩,
      link_mem_linkChanges_created_iff.mpr ⟨rfl, later, absent⟩⟩

/-- The links removed are those that are there no longer. -/
theorem link_mem_removed_iff :
    Item.link stored path ∈ (previous.changes next).removed ↔
      path ∈ previous.of stored ∧ path ∉ next.of stored := by
  simp only [changes, storedChanges, Changes.between, List.mem_append, List.mem_map,
    List.mem_flatMap, List.mem_filter]
  constructor
  · rintro ((⟨_, _, file⟩ | ⟨other, ⟨_, gone⟩, _, listed, same⟩) | ⟨_, ⟨other, _, rfl⟩, removed⟩)
    · cases file
    · cases same
      refine ⟨listed, fun later => ?_⟩
      have kept := mem_keys_of_mem_of later
      simp [kept] at gone
    · obtain ⟨rfl, both⟩ := link_mem_linkChanges_removed_iff.mp removed
      exact both
  · rintro ⟨earlier, absent⟩
    by_cases kept : stored ∈ next.links.keys
    · exact .inr ⟨_, ⟨stored, kept, rfl⟩,
        link_mem_linkChanges_removed_iff.mpr ⟨rfl, earlier, absent⟩⟩
    · exact .inl (.inr ⟨stored, ⟨mem_keys_of_mem_of earlier, by simpa using kept⟩, path, earlier,
        rfl⟩)

end LinkTable
end TagStore
