import TagStore.Proofs.Lockfile.Keep

/-!
# What making a lockfile leaves if it fails

Making a lockfile reads one source after another and stores what it has read.  If it fails at some
source, the contents of those before it have been stored by then.  It has changed nothing that was
there: all new nodes are contents in the store, each under its digest, and directories on the way to
it.  This is so in any output directory, provided that there is nothing but files in the store.
-/

namespace TagStore

open Location (IsName)

namespace Disk

/-- The place of a store is free, or there is a directory with nothing but files. -/
def IsPlainStore (disk : Disk) (store : Place) : Prop :=
  ∀ node, disk.node? store = some node → node = .directory ∧
    ∀ name inner, disk.node? (store ++ [name]) = some inner → ∃ content, inner = .file content

/-- If an output directory is there, the store in it is free or has nothing but files. -/
def HasPlainStore (disk : Disk) (output : String) : Prop :=
  ∀ limit there, disk.Reaches output limit there → disk.IsPlainStore (there ++ [storeName])

/-- What is made for the store of an output directory. -/
inductive IsForStore (disk : Disk) (output : String) : Place → Node → Prop
  /-- A directory to which the first names of the path of the store lead. -/
  | way {names : List String} {place : Place} :
      names <+: Location.namesOfEntry output ++ [storeName] →
      Arrives disk .entry ⟨linkLimit, names, disk.base output⟩ ⟨place, some .directory⟩ →
      IsForStore disk output place .directory
  /-- A content in the store, under its digest. -/
  | content {limit : Nat} {there : Place} (content : ByteArray) :
      disk.Reaches output limit there →
      IsForStore disk output (there ++ [storeName, digest content]) (.file content)

/-- A disk with all nodes of another one, and beyond them only what is made for a store. -/
structure Fills (output : String) (before after : Disk) : Prop extends before.Adds after where
  new : ∀ place node, after.node? place = some node →
    before.node? place = some node ∨ after.IsForStore output place node

variable {disk before between after : Disk} {output path : String} {limit left : Nat}
  {there other place : Place} {node : Node}

theorem IsForStore.of_adds (forStore : before.IsForStore output place node)
    (adds : before.Adds after) : after.IsForStore output place node := by
  cases forStore with
  | way start arrives =>
      rw [base, ← adds.home] at arrives
      exact .way start (arrives.of_adds adds)
  | content content reaches => exact .content content (reaches.of_adds adds)

theorem Fills.refl (output : String) (disk : Disk) : Fills output disk disk :=
  ⟨.refl disk, fun _ _ => .inl⟩

theorem Fills.trans (first : Fills output before between) (second : Fills output between after) :
    Fills output before after := by
  refine ⟨first.toAdds.trans second.toAdds, fun place node found => ?_⟩
  rcases second.new place node found with earlier | forStore
  · exact (first.new place node earlier).imp_right fun forStore =>
      forStore.of_adds second.toAdds
  · exact .inr forStore

theorem chains_fills (output : String) : Chains (Fills output) := ⟨.refl output, .trans⟩

theorem fills_put (free : disk.node? place = none)
    (forStore : (disk.put place node).IsForStore output place node) :
    Fills output disk (disk.put place node) := by
  refine ⟨adds_put free node, fun other found there => ?_⟩
  rcases disk.node?_put_cases place node other with same | ⟨rfl, put⟩
  · exact .inl (same ▸ there)
  · obtain rfl : node = found := Option.some.inj (put.symm.trans there)
    exact .inr forStore

/-! ## Directories on the way -/

/-- A path with the first names of the path of a store. -/
def StartsStore (output path : String) : Prop :=
  path ≠ "" → Location.isAbsolute path = Location.isAbsolute output ∧
    Location.namesOfEntry path <+: Location.namesOfEntry output ++ [storeName]

theorem StartsStore.parent {parent : String} (starts : StartsStore output path)
    (found : Location.parent? path = some parent) : StartsStore output parent := by
  intro named
  have written : path ≠ "" := by
    rintro rfl
    cases found
  obtain ⟨absolute, first⟩ := starts written
  obtain ⟨later, names, -⟩ := Location.namesOfEntry_of_parent? found named
  rw [Location.isAbsolute_of_parent? found named] at absolute
  exact ⟨absolute, .trans ⟨later, names.symm⟩ first⟩

theorem makeDirectory_fills (starts : StartsStore output path) :
    (makeDirectory path).Within (Fills output) := by
  refine (chains_fills output).makeDirectory fun disk place found => ?_
  obtain ⟨passes, arrives⟩ := find_eq_ok_iff.mp found
  have written : path ≠ "" := by
    rintro rfl
    cases passes
  obtain ⟨absolute, first⟩ := starts written
  have free : disk.node? place = none := arrives.node?_eq nofun
  rw [base, absolute] at arrives
  exact fills_put free (.way first arrives.put_directory)

/-- Whether the directories above a stored file can be made or not, only directories on the way to
the store are added. -/
theorem makeParents_fills {hash : String} (written : output ≠ "") (isName : IsName hash) :
    (makeParents (Location.join output (Lockfile.storedAt hash))).Within (Fills output) := by
  have chains := chains_fills output
  rw [makeParents]
  cases found : Location.parent? (Location.join output (Lockfile.storedAt hash)) with
  | none => exact chains.pure ()
  | some parent =>
      have starts : StartsStore output parent := by
        intro named
        obtain ⟨names, absolute⟩ := Lockfile.parent?_join_storedAt written isName found named
        exact ⟨absolute, names ▸ List.prefix_refl _⟩
      exact chains.makeDirectoriesWithin (fun _ => makeDirectory_fills)
        (fun _ _ starts => starts.parent) _ starts

/-! ## Plain stores -/

theorem isPlainStore_iff {store : Place} : disk.IsPlainStore store ↔
    ∀ node ∈ disk.node? store, node = .directory ∧ ∀ entry ∈ disk.nodes.entries, entry.1 ≠ [] →
      entry.1.dropLast = store → ∃ content, entry.2 = .file content := by
  constructor
  · rintro plain node found
    refine ⟨(plain node found).1, ?_⟩
    rintro ⟨place, inner⟩ member nonempty rfl
    refine (plain node found).2 (place.getLast nonempty) inner ?_
    rw [List.dropLast_concat_getLast, node?_of_ne nonempty]
    exact Index.get?_eq_some_iff.mpr member
  · intro plain node found
    refine ⟨(plain node found).1, fun name inner there => ?_⟩
    rw [node?_of_ne (List.concat_ne_nil _ _)] at there
    exact (plain node found).2 _ (Index.get?_eq_some_iff.mp there) (List.concat_ne_nil _ _)
      List.dropLast_concat

instance (node : Node) : Decidable (∃ content, node = .file content) :=
  match node with
  | .file content => isTrue ⟨content, rfl⟩
  | .link _ | .directory => isFalse (by simp)

instance (disk : Disk) (store : Place) : Decidable (disk.IsPlainStore store) :=
  decidable_of_iff' _ isPlainStore_iff

theorem IsPlainStore.put_store {store : Place} (tree : disk.IsTree) (nonempty : store ≠ [])
    (free : disk.node? store = none) :
    (disk.put store .directory).IsPlainStore store := by
  intro node found
  rw [node?_put nonempty, if_pos rfl] at found
  refine ⟨(Option.some.inj found).symm, fun name inner there => ?_⟩
  rw [node?_put nonempty, if_neg (by simp), tree.free (List.cons_ne_nil _ _) (by simp [free])]
    at there
  cases there

theorem IsPlainStore.put_content {store : Place} {name : String}
    (plain : disk.IsPlainStore store) (content : ByteArray) :
    (disk.put (store ++ [name]) (.file content)).IsPlainStore store := by
  intro node found
  rw [node?_put (by simp), if_neg (by simp)] at found
  refine ⟨(plain node found).1, fun other inner there => ?_⟩
  rw [node?_put (by simp)] at there
  split at there
  · exact ⟨content, (Option.some.inj there).symm⟩
  · exact (plain node found).2 other inner there

theorem IsPlainStore.not_link {store : Place} (plain : disk.IsPlainStore store) (target : String) :
    disk.node? store ≠ some (.link target) :=
  fun link => nomatch (plain _ link).1

theorem Reaches.unique (one : disk.Reaches output limit there)
    (two : disk.Reaches output left other) : other = there := by
  have ends (left : Nat) (here : Place) :
      disk.walk .entry left ["."] here = .ok ⟨here, some .directory⟩ := by
    rw [walk_eq, walkNames_idle (by decide), walkNames]
  have first := one.passes.walk_eq .entry (List.cons_ne_nil "." []) (by decide)
  have second := two.passes.walk_eq .entry (List.cons_ne_nil "." []) (by decide)
  rw [ends] at first second
  exact congrArg Spot.place (Except.ok.inj (second.symm.trans first))

theorem Reaches.hasPlainStore (reaches : disk.Reaches output limit there)
    (plain : disk.IsPlainStore (there ++ [storeName])) : disk.HasPlainStore output := by
  intro left other again
  rwa [reaches.unique again]

end Disk

namespace Lockfile

open Disk

variable {disk between after : Disk} {output hash : String} {limit : Nat} {there : Place}
  {previous lockfile : Lockfile} {dry : Bool} {failure : Failure} {content : ByteArray}

/-! ## Keeping -/

/-- An output directory that is there, with a plain store. -/
structure IsOpen (disk : Disk) (output : String) : Prop extends disk.IsRooted where
  plain : disk.HasPlainStore output
  there : ∃ limit there, disk.Reaches output limit there

/-- Making the directories above a stored file leaves a plain store. -/
theorem IsOpen.makeParents (isOpen : IsOpen disk output) (isName : IsName hash) :
    IsOpen ((Disk.makeParents (Location.join output (storedAt hash))).left disk) output := by
  obtain ⟨limit, there, reaches⟩ := isOpen.there
  rcases left_makeParents reaches isName with same | ⟨free, same⟩
  · rw [same]
    exact isOpen
  · have later := reaches.of_adds (adds_put free .directory)
    have apart : disk.node? (there ++ [storeName]) ≠ some .directory := by simp [free]
    have rooted := isOpen.toIsRooted.put apart (reaches.directory isOpen.toIsRooted) .directory
    rw [same]
    exact ⟨rooted, later.hasPlainStore (.put_store isOpen.tree (by simp) free), _, _, later⟩

/-- Writing a stored file that was not found puts it at a free place in the store. -/
theorem IsOpen.write_eq (isOpen : IsOpen disk output)
    (new : ∀ place found, disk.lookForFile (Location.join output (storedAt (digest content))) ≠
      .ok ⟨place, some (.file found)⟩)
    (done : Disk.write (Location.join output (storedAt (digest content))) content disk =
      .ok () after) :
    ∃ limit there, disk.Reaches output limit there ∧
      disk.node? (there ++ [storeName]) = some .directory ∧
      disk.node? (there ++ [storeName] ++ [digest content]) = none ∧
      after = disk.put (there ++ [storeName] ++ [digest content]) (.file content) := by
  obtain ⟨limit, there, reaches⟩ := isOpen.there
  have plain := isOpen.plain _ _ reaches
  have inner : there ++ [storeName, digest content] = there ++ [storeName] ++ [digest content] :=
    List.append_cons _ _ _
  obtain ⟨place, node, found, other, rfl⟩ := write_eq_ok done
  have final (target : String) :
      disk.node? (there ++ [storeName, digest content]) ≠ some (.link target) := by
    intro link
    have store := isOpen.tree.above (List.cons_ne_nil _ _) (inner ▸ link)
    obtain ⟨held, file⟩ := (plain _ store).2 _ _ (inner ▸ link)
    cases file
  obtain ⟨same, store⟩ := spot_of_find_stored isOpen.toIsRooted reaches (isName_digest content)
    plain.not_link final found
  obtain ⟨rfl, at_⟩ := Spot.mk.inj same
  refine ⟨limit, there, reaches, store, ?_, inner ▸ rfl⟩
  rw [← inner]
  rcases node with _ | held | target | _
  · exact at_.symm
  · exact absurd found (new _ held)
  · exact absurd at_.symm (final target)
  · exact absurd rfl other

/-- Writing a stored file that was not found puts it into the store. -/
theorem IsOpen.write (isOpen : IsOpen disk output)
    (new : ∀ place found, disk.lookForFile (Location.join output (storedAt (digest content))) ≠
      .ok ⟨place, some (.file found)⟩)
    (done : Disk.write (Location.join output (storedAt (digest content))) content disk =
      .ok () after) : Fills output disk after ∧ IsOpen after output := by
  obtain ⟨limit, there, reaches, store, free, rfl⟩ := isOpen.write_eq new done
  have later := reaches.of_adds (adds_put free (.file content))
  have inner : there ++ [storeName, digest content] = there ++ [storeName] ++ [digest content] :=
    List.append_cons _ _ _
  have apart : disk.node? (there ++ [storeName] ++ [digest content]) ≠ some .directory :=
    free ▸ (Option.some_ne_none _).symm
  refine ⟨fills_put free ?_, isOpen.toIsRooted.put apart store _, ?_, limit, there, later⟩
  · have forStore := IsForStore.content content later
    rwa [inner] at forStore
  · exact later.hasPlainStore ((isOpen.plain _ _ reaches).put_content content)

/-- Keeping a content puts it into the store, if it is not there. -/
theorem IsOpen.keep (isOpen : IsOpen disk output)
    (done : keep output (digest content) content disk = .ok () after) :
    Fills output disk after ∧ IsOpen after output := by
  obtain ⟨limit, there, reaches⟩ := isOpen.there
  have isName := isName_digest content
  by_cases absent : isThere (disk.look (Location.join output (storedAt (digest content))))
  · rw [keep_there absent] at done
    cases done
    exact ⟨.refl output disk, isOpen⟩
  rw [keep_absent absent] at done
  obtain ⟨_, between, parents, written⟩ := bind_ok done
  have new := lookForFile_new isOpen.toIsRooted reaches isName absent
  have opened := isOpen.makeParents isName
  rw [DiskStep.left_ok parents] at new opened
  have way := (makeParents_fills reaches.written isName).ok parents
  obtain ⟨stored, opened⟩ := opened.write new written
  exact ⟨way.trans stored, opened⟩

/-- Where a content cannot be kept, nothing but directories on the way to the store is added. -/
theorem keep_error_fills {error : DiskError} (written : output ≠ "") (isName : IsName hash)
    (failed : Lockfile.keep output hash content disk = .error error after) :
    Fills output disk after := by
  have absent : ¬isThere (disk.look (Location.join output (storedAt hash))) := by
    intro there
    rw [keep_there there] at failed
    cases failed
  have way := makeParents_fills written isName
  rw [keep_absent absent] at failed
  simp only [place, bind, EStateM.bind] at failed
  cases parents : Disk.makeParents (Location.join output (storedAt hash)) disk with
  | error other between =>
      rw [parents] at failed
      cases failed
      exact way.error parents
  | ok _ between =>
      rw [parents] at failed
      rw [write_error failed]
      exact way.ok parents

/-! ## Recording -/

theorem IsOpen.hashOf (isOpen : IsOpen disk output) {id : String} {file : FileRecord}
    (done : hashOf previous output dry id file disk = .ok hash after) :
    Fills output disk after ∧ IsOpen after output := by
  cases known : previous.knownHash? id file with
  | some kept =>
      rw [hashOf_known known] at done
      cases done
      exact ⟨.refl output disk, isOpen⟩
  | none =>
      rw [hashOf_unknown known] at done
      have way := store_way output dry file.source disk
      rw [done] at way
      cases way with
      | dry => exact ⟨.refl output disk, isOpen⟩
      | kept _ _ kept => exact isOpen.keep kept

theorem hashOf_error_fills (written : output ≠ "") {id : String} {file : FileRecord}
    (failed : hashOf previous output dry id file disk = .error failure after) :
    Fills output disk after := by
  cases known : previous.knownHash? id file with
  | some kept =>
      rw [hashOf_known known] at failed
      cases failed
  | none =>
      rw [hashOf_unknown known] at failed
      have way := store_way output dry file.source disk
      rw [failed] at way
      cases way with
      | unread => exact .refl output disk
      | unkept _ _ failed => exact keep_error_fills written (isName_digest _) failed

/-- Recording files that fails has stored the contents of those before the one at which it fails.
Contents may be stored before a failure if the output directory is there. -/
theorem recordAll_error_fills {files : List (String × FileRecord)} {start : Lockfile}
    (written : output ≠ "") (isOpen : files.length ≤ 1 ∨ IsOpen disk output)
    (failed : recordAll previous output dry files start disk = .error failure after) :
    Fills output disk after := by
  induction files generalizing start disk with
  | nil => cases failed
  | cons entry rest induction =>
      rw [recordAll] at failed
      simp only [bind, EStateM.bind] at failed
      cases found : hashOf previous output dry entry.1 entry.2 disk with
      | error other between =>
          rw [found] at failed
          cases failed
          exact hashOf_error_fills written found
      | ok hash between =>
          rw [found] at failed
          simp only at failed
          rcases isOpen with short | isOpen
          · -- There is no further file at which it could fail.
            obtain rfl : rest = [] := List.eq_nil_of_length_eq_zero (by simpa using short)
            cases failed
          · obtain ⟨fills, isOpen⟩ := isOpen.hashOf found
            exact fills.trans (induction (.inr isOpen) failed)

end Lockfile
end TagStore
