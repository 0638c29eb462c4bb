import TagStore.Proofs.Digest
import TagStore.Proofs.Links.CarryOut
import TagStore.Proofs.Lockfile.Ways

/-!
# What making a lockfile stores

Making a lockfile adds contents to the store, each under its digest, and touches nothing outside of
the store.  The lockfile has a record for each file of the catalog.
-/

namespace TagStore

open Disk (Fits storeName)
open Location (IsName)

namespace Disk

/-- A content with a digest is in the store. -/
def IsStored (disk : Disk) (hash : String) : Prop :=
  ∃ content, disk.node? (disk.home ++ [storeName, hash]) = some (.file content) ∧
    digest content = hash

/-- Everything in the store is kept under its digest. -/
def IsAddressed (disk : Disk) : Prop :=
  ∀ hash content, disk.node? (disk.home ++ [storeName, hash]) = some (.file content) →
    digest content = hash

end Disk

namespace Lockfile

variable {disk after : Disk}

/-- A sound disk that differs from another one by further contents in the store. -/
structure Stocks (before : Disk) (new : String → Prop) (after : Disk) : Prop where
  sound : after.IsSound
  home : after.home = before.home
  addressed : after.IsAddressed
  outside : ∀ names, names.head? ≠ some storeName →
    after.node? (before.home ++ names) = before.node? (before.home ++ names)
  stored : ∀ hash, after.IsStored hash ↔ before.IsStored hash ∨ new hash

theorem Stocks.refl (sound : disk.IsSound) (addressed : disk.IsAddressed) {new : String → Prop}
    (known : ∀ hash, new hash → disk.IsStored hash) : Stocks disk new disk :=
  ⟨sound, rfl, addressed, fun _ _ => rfl, fun hash => (or_iff_left_of_imp (known hash)).symm⟩

theorem Stocks.trans {between : Disk} {first second : String → Prop}
    (one : Stocks disk first between) (two : Stocks between second after) :
    Stocks disk (fun hash => first hash ∨ second hash) after where
  sound := two.sound
  home := two.home.trans one.home
  addressed := two.addressed
  outside := by
    intro names outside
    rw [← one.outside names outside, ← one.home]
    exact two.outside names outside
  stored := by
    intro hash
    rw [two.stored, one.stored, or_assoc]

theorem leads_stored (hash : String) (isName : IsName hash) :
    disk.Leads (Location.join "." (storedAt hash)) [storeName, hash] := by
  rw [storedAt_eq]
  exact Disk.leads_join_dot (List.cons_ne_nil _ _) (isName_stored isName)

theorem exists_of_isThere {found : Except DiskError Disk.Spot} (there : Disk.isThere found) :
    ∃ place node, found = .ok ⟨place, some node⟩ := by
  unfold Disk.isThere at there
  split at there
  · exact ⟨_, _, rfl⟩
  · cases there

theorem isStored_of_isThere (sound : disk.IsSound) (addressed : disk.IsAddressed) {hash : String}
    (isName : IsName hash)
    (there : Disk.isThere (disk.look (Location.join "." (storedAt hash)))) :
    disk.IsStored hash := by
  have leads : disk.Leads _ _ := leads_stored hash isName
  have areNames := isName_stored isName
  rw [Disk.look, leads.names_eq (List.cons_ne_nil _ _) areNames] at there
  obtain ⟨place, node, found⟩ := exists_of_isThere there
  have final := Disk.not_link_in_store sound hash
  obtain ⟨same, -⟩ := sound.spot_of_find leads areNames (.inr final) found
  obtain ⟨rfl, there⟩ := Disk.Spot.mk.inj same
  cases node with
  | file content => exact ⟨content, there.symm, addressed hash content there.symm⟩
  | link target => exact absurd there.symm (Disk.not_link_in_store sound hash target)
  | directory => exact absurd there.symm (Disk.not_directory_in_store sound hash)

theorem outside_of_grows (sound : disk.IsSound)
    (grows : disk.Grows (disk.home ++ [storeName]) after) {names : List String}
    (outside : names.head? ≠ some storeName) :
    after.node? (disk.home ++ names) = disk.node? (disk.home ++ names) := by
  rcases grows.nodes (disk.home ++ names) with same | ⟨way, free, _⟩
  · exact same
  · have prefixes := (List.prefix_append_right_inj _).mp way
    cases names with
    | nil =>
        rw [List.append_nil, sound.home_directory] at free
        cases free
    | cons first rest =>
        rw [List.cons_prefix_cons] at prefixes
        exact absurd (congrArg some prefixes.1) outside

/-- A content written into a store whose directory has been made. -/
theorem stocks_put {content : ByteArray} (sound : disk.IsSound) (addressed : disk.IsAddressed)
    (grows : disk.Grows (disk.home ++ [storeName]) after)
    (above : after.node? (disk.home ++ [storeName]) = some .directory) :
    Stocks disk (· = digest content)
      (after.put (disk.home ++ [storeName, digest content]) (.file content)) := by
  have inside : disk.home ++ [storeName, digest content] ≠ [] :=
    Disk.place_ne_nil (List.cons_ne_nil _ _)
  have file (hash : String) (node : ByteArray) :
      (after.put (disk.home ++ [storeName, digest content]) (.file content)).node?
        (disk.home ++ [storeName, hash]) = some (.file node) ↔
      if hash = digest content then content = node
      else disk.node? (disk.home ++ [storeName, hash]) = some (.file node) := by
    rw [Disk.node?_put inside]
    by_cases same : hash = digest content
    · simp [same]
    · simp [same, (Changes.keeps_of_grows grows).file_iff]
  have fits : Fits after.home [storeName, digest content] (.file content) := .inr ⟨_, rfl⟩
  rw [← grows.home] at above
  have whole := grows.sound.put (List.cons_ne_nil storeName [digest content]) above
    (Disk.not_directory_in_store grows.sound _) fits
  rw [grows.home] at whole
  refine ⟨whole, grows.home, ?_, ?_, ?_⟩
  · intro hash node there
    rw [Disk.home_put, grows.home, file] at there
    split at there
    · rename_i same
      rw [same, there]
    · exact addressed hash node there
  · intro names outside
    have apart : disk.home ++ names ≠ disk.home ++ [storeName, digest content] := by
      rintro same
      rw [List.append_cancel_left same] at outside
      exact outside rfl
    rw [Disk.node?_put inside, if_neg apart]
    exact outside_of_grows sound grows outside
  · intro hash
    simp only [Disk.IsStored, Disk.home_put, grows.home, file]
    by_cases same : hash = digest content
    · simp [same]
    · simp [same]

/-- Keeping a content puts it into the store unless it is there. -/
theorem keep_ok (sound : disk.IsSound) (addressed : disk.IsAddressed) {content : ByteArray}
    (done : keep "." (digest content) content disk = .ok () after) :
    Stocks disk (· = digest content) after := by
  have isName := isName_digest content
  simp only [keep] at done
  split at done
  · rename_i there
    cases done
    refine .refl sound addressed ?_
    rintro _ rfl
    exact isStored_of_isThere sound addressed isName there
  · have leads : disk.Leads _ ([storeName] ++ [digest content]) := leads_stored _ isName
    have areNames := isName_stored isName
    obtain ⟨_, between, parents, written⟩ := Disk.bind_ok done
    have grows := Disk.makeParents_ok sound leads areNames (.inr rfl) parents
    obtain ⟨rfl, -, above⟩ := Disk.write_ok grows.sound (leads.of_home_eq grows.home)
      (List.cons_ne_nil _ _) areNames (Disk.not_link_in_store grows.sound _) written
    rw [grows.home] at above ⊢
    exact stocks_put sound addressed grows above

/-! ## Records -/

variable {previous : Lockfile} {dry : Bool} {hash : String}

/-- What making a lockfile does to a disk: a dry run does nothing. -/
def Stores (dry : Bool) (before : Disk) (new : String → Prop) (after : Disk) : Prop :=
  if dry then after = before else Stocks before new after

theorem Stores.refl (sound : disk.IsSound) (addressed : disk.IsAddressed) {new : String → Prop}
    (known : ∀ hash, new hash → disk.IsStored hash) : Stores dry disk new disk := by
  cases dry with
  | false => exact .refl sound addressed known
  | true => rfl

theorem Stores.sound {new : String → Prop} (stores : Stores dry disk new after)
    (sound : disk.IsSound) : after.IsSound := by
  cases dry with
  | false => exact Stocks.sound stores
  | true => exact stores ▸ sound

theorem Stores.addressed {new : String → Prop} (stores : Stores dry disk new after)
    (addressed : disk.IsAddressed) : after.IsAddressed := by
  cases dry with
  | false => exact Stocks.addressed stores
  | true => exact stores ▸ addressed

theorem Stores.trans {between : Disk} {first second new : String → Prop}
    (one : Stores dry disk first between) (two : Stores dry between second after)
    (both : ∀ hash, first hash ∨ second hash ↔ new hash) : Stores dry disk new after := by
  cases dry with
  | false =>
      rw [← funext fun hash => propext (both hash)]
      exact Stocks.trans one two
  | true => exact Eq.trans two one

theorem store_ok {output source : String} (done : store output dry source disk = .ok hash after) :
    (∃ content, hash = digest content) ∧
      (output = "." → disk.IsSound → disk.IsAddressed → Stores dry disk (· = hash) after) := by
  have way := store_way output dry source disk
  rw [done] at way
  cases way with
  | dry dry =>
      subst dry
      exact ⟨⟨_, rfl⟩, fun _ _ _ => rfl⟩
  | kept wet _ kept =>
      subst wet
      refine ⟨⟨_, rfl⟩, ?_⟩
      rintro rfl sound addressed
      exact keep_ok sound addressed kept

/-- The digest of a file is the one known for it, or else that of a content put into the store. -/
theorem hashOf_ok {output id : String} {file : FileRecord}
    (done : hashOf previous output dry id file disk = .ok hash after) :
    (previous.knownHash? id file = some hash ∨
      previous.knownHash? id file = none ∧ ∃ content, hash = digest content) ∧
      (output = "." → disk.IsSound → disk.IsAddressed →
        Stores dry disk (fun new => previous.knownHash? id file = none ∧ new = hash) after) := by
  cases known : previous.knownHash? id file with
  | some kept =>
      rw [hashOf_known known] at done
      cases done
      refine ⟨.inl rfl, fun _ sound addressed => .refl sound addressed ?_⟩
      exact fun _ unknown => nomatch unknown.1
  | none =>
      rw [hashOf_unknown known] at done
      obtain ⟨digested, stores⟩ := store_ok done
      simp only [true_and]
      exact ⟨.inr digested, stores⟩

/-- Digests for some files: those that are known, and digests of contents. -/
def Digests (previous : Lockfile) (hashes : String → String)
    (files : List (String × FileRecord)) : Prop :=
  ∀ entry ∈ files, previous.knownHash? entry.1 entry.2 = some (hashes entry.1) ∨
    previous.knownHash? entry.1 entry.2 = none ∧ ∃ content, hashes entry.1 = digest content

/-- The digests among those for some files that were not known. -/
def Learns (previous : Lockfile) (hashes : String → String) (files : List (String × FileRecord))
    (new : String) : Prop :=
  ∃ entry ∈ files, previous.knownHash? entry.1 entry.2 = none ∧ new = hashes entry.1

/-- The records of some files with given digests. -/
def records (hashes : String → String) (files : List (String × FileRecord)) :
    List (String × Lock) :=
  files.map fun entry => (entry.1, lockOf entry.2 (hashes entry.1))

/-- Recording files makes a record of each, and stores the contents whose digest was not known. -/
theorem recordAll_ok {files : List (String × FileRecord)} (increasing : Increasing files)
    {start lockfile : Lockfile} {output : String}
    (done : recordAll previous output dry files start disk = .ok lockfile after) :
    ∃ hashes, Digests previous hashes files ∧
      lockfile.locks = (records hashes files).foldl
        (fun locks entry => locks.insert entry.1 entry.2) start.locks ∧
      (output = "." → disk.IsSound → disk.IsAddressed →
        Stores dry disk (Learns previous hashes files) after) := by
  induction files generalizing start disk with
  | nil =>
      cases done
      refine ⟨fun _ => "", ?_, rfl, fun _ sound addressed => .refl sound addressed ?_⟩
      · rintro _ none
        cases none
      · rintro _ ⟨_, none, _⟩
        cases none
  | cons entry rest induction =>
      rcases entry with ⟨id, file⟩
      obtain ⟨above, tail⟩ := List.pairwise_cons.mp increasing
      obtain ⟨hash, between, found, later⟩ := Disk.bind_ok done
      obtain ⟨digested, first⟩ := hashOf_ok found
      obtain ⟨others, known, made, second⟩ := induction tail later
      -- The digest of the first file is put in front of those of the others.
      have apart : ∀ entry ∈ rest, entry.1 ≠ id := fun entry member =>
        (Index.ne_of_compare_eq_lt (above entry member)).symm
      let hashes (other : String) : String := if other = id then hash else others other
      have here : hashes id = hash := if_pos rfl
      have elsewhere : ∀ entry ∈ rest, hashes entry.1 = others entry.1 := fun entry member =>
        if_neg (apart entry member)
      refine ⟨hashes, ?_, ?_, fun dot sound addressed => ?_⟩
      · refine List.forall_mem_cons.mpr ⟨by rwa [here], fun entry member => ?_⟩
        rw [elsewhere entry member]
        exact known entry member
      · have same : records hashes rest = records others rest :=
          List.map_congr_left fun entry member => by rw [elsewhere entry member]
        rw [made, ← same]
        simp only [records, List.map_cons, List.foldl_cons, here]
      · have first := first dot sound addressed
        refine first.trans (second dot (first.sound sound) (first.addressed addressed))
          fun new => ?_
        simp only [Learns, List.mem_cons, exists_eq_or_imp, here]
        apply or_congr_right
        constructor
        · rintro ⟨entry, member, unknown, rfl⟩
          exact ⟨entry, member, unknown, (elsewhere entry member).symm⟩
        · rintro ⟨entry, member, unknown, rfl⟩
          exact ⟨entry, member, unknown, elsewhere entry member⟩

/-- The lockfile of a catalog has a record of each of its files. -/
theorem ofCatalog_ok {catalog : Catalog} {lockfile : Lockfile} {output : String}
    (done : ofCatalog catalog previous output dry disk = .ok lockfile after) :
    ∃ hashes, Digests previous hashes catalog.files.entries ∧
      lockfile.locks = catalog.files.map (fun id file => lockOf file (hashes id)) ∧
      (output = "." → disk.IsSound → disk.IsAddressed →
        Stores dry disk (Learns previous hashes catalog.files.entries) after) := by
  obtain ⟨hashes, known, made, stores⟩ := recordAll_ok catalog.files.increasing done
  refine ⟨hashes, known, ?_, stores⟩
  rw [made]
  exact Index.ofList_entries (catalog.files.map fun id file => lockOf file (hashes id))

/-- Where the digest of each file is found without storing anything, recording the files stores
nothing. -/
theorem recordAll_of_hashOf {files : List (String × FileRecord)} {hashes : String → String}
    {output : String} (found : ∀ entry ∈ files,
      hashOf previous output dry entry.1 entry.2 disk = .ok (hashes entry.1) disk)
    (start : Lockfile) :
    recordAll previous output dry files start disk = .ok ⟨(records hashes files).foldl
      (fun locks entry => locks.insert entry.1 entry.2) start.locks⟩ disk := by
  induction files generalizing start with
  | nil => rfl
  | cons entry rest induction =>
      obtain ⟨first, later⟩ := List.forall_mem_cons.mp found
      have step : recordAll previous output dry (entry :: rest) start disk =
          recordAll previous output dry rest
            ⟨start.locks.insert entry.1 (lockOf entry.2 (hashes entry.1))⟩ disk := by
        simp only [recordAll, bind, EStateM.bind, first]
      rw [step, induction later]
      rfl

/-- The lockfile of a catalog whose digests are found without storing anything. -/
theorem ofCatalog_of_hashOf {catalog : Catalog} {hashes : String → String} {output : String}
    (found : ∀ id file, catalog.files.get? id = some file →
      hashOf previous output dry id file disk = .ok (hashes id) disk) :
    ofCatalog catalog previous output dry disk =
      .ok ⟨catalog.files.map fun id file => lockOf file (hashes id)⟩ disk := by
  have each : ∀ entry ∈ catalog.files.entries,
      hashOf previous output dry entry.1 entry.2 disk = .ok (hashes entry.1) disk :=
    fun entry member => found entry.1 entry.2 (Index.get?_eq_some_iff.mpr member)
  have made : (records hashes catalog.files.entries).foldl
      (fun locks entry => locks.insert entry.1 entry.2) ∅ =
        catalog.files.map fun id file => lockOf file (hashes id) :=
    Index.ofList_entries (catalog.files.map fun id file => lockOf file (hashes id))
  rw [ofCatalog, recordAll_of_hashOf each, made]

end Lockfile
end TagStore
