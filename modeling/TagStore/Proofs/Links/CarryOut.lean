import TagStore.Links.CarryOut
import TagStore.Lockfile.Basic
import TagStore.Proofs.Disk.Write

/-!
# What carrying out changes does

Removals that succeed leave nothing at the places of their items and everything else as it was.
Links that are made stand at their places afterwards, and everything else is as it was but for new
directories.
-/

namespace TagStore

open Disk (Fits storeName storedTarget)
open Location (IsName IsEntry ofParts)

/-! ## Stored files -/

theorem Lockfile.storedAt_eq (hash : String) : storedAt hash = ofParts [storeName, hash] := by
  rw [Location.ofParts_cons_cons, Location.ofParts_singleton, ← String.toList_inj]
  simp [storedAt, Disk.storeName]

theorem Lockfile.endsIn_storedAt (hash : String) : Location.EndsIn (storedAt hash) hash :=
  .inr ⟨".hash", rfl⟩

theorem Lockfile.isName_stored {hash : String} (isName : IsName hash) :
    ∀ name ∈ [storeName, hash], IsName name := by
  simpa using ⟨Disk.isName_storeName, isName⟩

theorem Lockfile.namesOfEntry_storedAt {hash : String} (isName : IsName hash) :
    Location.namesOfEntry (storedAt hash) = [storeName, hash] := by
  rw [storedAt_eq]
  exact Location.namesOfEntry_of_isName (List.cons_ne_nil _ _) (isName_stored isName)

theorem Lockfile.isEntry_storedAt {hash : String} (isName : IsName hash) :
    IsEntry (storedAt hash) := by
  rw [storedAt_eq]
  exact Location.isEntry_ofParts (List.cons_ne_nil _ _) (isName_stored isName)

/-- A link made in the output directory points at the stored file. -/
theorem Disk.join_storedAt {disk : Disk} (rooted : disk.IsRooted) {hash : String}
    (isName : IsName hash) :
    Location.join (disk.absolute ".") (Lockfile.storedAt hash) = storedTarget disk.home hash := by
  rw [Lockfile.storedAt_eq, join_absolute rooted (List.cons_ne_nil _ _)
    (Lockfile.isName_stored isName)]
  rfl

namespace Changes

variable {disk after : Disk} {output : String}

theorem leads_of_isEntry {path : String} (rooted : disk.IsRooted)
    (directory : output = disk.absolute ".") (isEntry : IsEntry path) :
    disk.Leads (Location.join output path) (Location.namesOfEntry path) := by
  have leads := Disk.leads_join_absolute rooted isEntry.nonempty isEntry.areNames
  rwa [← isEntry.eq_ofParts, ← directory] at leads

theorem absolute_of_home_eq (path : String) (same : after.home = disk.home) :
    after.absolute path = disk.absolute path := by
  rw [Disk.absolute, Disk.absolute, Disk.homePath_eq, Disk.homePath_eq, same]

/-! ## Removing -/

/-- A sound disk that differs from another one by having nothing at some places. -/
structure Clears (before : Disk) (gone : Place → Prop) (after : Disk) : Prop where
  sound : after.IsSound
  home : after.home = before.home
  cleared : ∀ place, gone place → after.node? place = none
  kept : ∀ place, ¬gone place → after.node? place = before.node? place

theorem removeItem_ok {item : Item} (sound : disk.IsSound) (directory : output = disk.absolute ".")
    (isEntry : IsEntry item.path) (done : removeItem output item disk = .ok () after) :
    Clears disk (· = disk.home ++ Location.namesOfEntry item.path) after := by
  have leads := leads_of_isEntry sound.toIsRooted directory isEntry
  have inside : disk.home ++ Location.namesOfEntry item.path ≠ [] :=
    Disk.place_ne_nil isEntry.nonempty
  delta removeItem at done
  split at done
  · rename_i failed
    cases done
    obtain ⟨rfl, free⟩ := Disk.remove_notFound sound leads isEntry.nonempty isEntry.areNames failed
    refine ⟨sound, rfl, ?_, fun _ _ => rfl⟩
    rintro _ rfl
    exact free
  · obtain ⟨rfl, other⟩ := Disk.remove_ok sound leads isEntry.areNames done
    refine ⟨sound.drop isEntry.nonempty other, rfl, ?_, ?_⟩
    · rintro _ rfl
      rw [Disk.node?_drop inside, if_pos rfl]
    · intro place apart
      rw [Disk.node?_drop inside, if_neg apart]

/-- Removing items one after the other clears all of their places and no other. -/
theorem each_removeItem_ok {items : List Item} (sound : disk.IsSound)
    (directory : output = disk.absolute ".") (areEntries : ∀ item ∈ items, IsEntry item.path)
    (done : each (removeItem output) items disk = .ok () after) :
    Clears disk (fun place => ∃ item ∈ items, place = disk.home ++ Location.namesOfEntry item.path)
      after := by
  induction items generalizing disk with
  | nil =>
      cases done
      refine ⟨sound, rfl, ?_, fun _ _ => rfl⟩
      rintro place ⟨_, none, _⟩
      cases none
  | cons item rest induction =>
      obtain ⟨isEntry, others⟩ := List.forall_mem_cons.mp areEntries
      obtain ⟨_, between, removed, later⟩ := Disk.bind_ok done
      have first := removeItem_ok sound directory isEntry removed
      rw [← absolute_of_home_eq _ first.home] at directory
      have second := induction first.sound directory others later
      rw [first.home] at second
      refine ⟨second.sound, second.home.trans first.home, ?_, ?_⟩
      · rintro place ⟨other, member, same⟩
        by_cases listed : ∃ other ∈ rest, place = disk.home ++ Location.namesOfEntry other.path
        · exact second.cleared place listed
        · rcases List.mem_cons.mp member with rfl | member
          · rw [second.kept place listed]
            exact first.cleared place same
          · exact absurd ⟨other, member, same⟩ listed
      · intro place apart
        rw [second.kept place fun ⟨other, member, same⟩ =>
          apart ⟨other, List.mem_cons_of_mem _ member, same⟩]
        exact first.kept place fun same => apart ⟨item, List.mem_cons_self, same⟩

/-! ## Making links -/

/-- A disk has a node where another one has it, but for directories at free places. -/
def Keeps (before after : Disk) (place : Place) : Prop :=
  after.node? place = before.node? place ∨
    before.node? place = none ∧ after.node? place = some .directory

theorem Keeps.trans {between : Disk} {place : Place} (first : Keeps disk between place)
    (second : Keeps between after place) : Keeps disk after place := by
  rcases second with same | ⟨free, made⟩
  · rcases first with earlier | ⟨free, made⟩
    · exact .inl (same.trans earlier)
    · exact .inr ⟨free, same.trans made⟩
  · rcases first with earlier | ⟨_, directory⟩
    · exact .inr ⟨earlier ▸ free, made⟩
    · rw [directory] at free
      cases free

theorem Keeps.link_iff {place : Place} {target : String} (keeps : Keeps disk after place) :
    after.node? place = some (.link target) ↔ disk.node? place = some (.link target) := by
  rcases keeps with same | ⟨free, made⟩
  · rw [same]
  · simp [free, made]

theorem Keeps.file_iff {place : Place} {content : ByteArray} (keeps : Keeps disk after place) :
    after.node? place = some (.file content) ↔ disk.node? place = some (.file content) := by
  rcases keeps with same | ⟨free, made⟩
  · rw [same]
  · simp [free, made]

/-- A sound disk that differs from another one by links at some places and by directories. -/
structure Links (before : Disk) (linked : Place → String → Prop) (after : Disk) : Prop where
  sound : after.IsSound
  home : after.home = before.home
  made : ∀ place, (∃ target, linked place target) →
    ∃ target, linked place target ∧ after.node? place = some (.link target)
  kept : ∀ place, (∀ target, ¬linked place target) → Keeps before after place

theorem keeps_of_grows {place outer : Place} (grows : disk.Grows outer after) :
    Keeps disk after place :=
  (grows.nodes place).imp_right fun ⟨_, free, made⟩ => ⟨free, made⟩

theorem makeLink_links {target path : String} {names : List String} {between : Disk}
    (sound : between.IsSound) (same : between.home = disk.home)
    (kept : ∀ place, place ≠ disk.home ++ names → Keeps disk between place)
    (leads : between.Leads path names) (nonempty : names ≠ [])
    (areNames : ∀ name ∈ names, IsName name) (fits : Fits disk.home names (.link target))
    (done : Disk.makeLink target path between = .ok () after) :
    Links disk (fun place made => place = disk.home ++ names ∧ made = target) after := by
  obtain ⟨rfl, free, above⟩ := Disk.makeLink_ok sound leads areNames done
  have inside : between.home ++ names ≠ [] := Disk.place_ne_nil nonempty
  rw [same] at free above inside ⊢
  rw [← same] at fits
  refine ⟨?_, same, ?_, ?_⟩
  · rw [← same] at free above ⊢
    exact sound.put nonempty above (by simp [free]) fits
  · rintro place ⟨_, rfl, rfl⟩
    refine ⟨_, ⟨rfl, rfl⟩, ?_⟩
    rw [Disk.node?_put inside, if_pos rfl]
  · intro place apart
    have other : place ≠ disk.home ++ names := fun equal => apart target ⟨equal, rfl⟩
    rw [Keeps, Disk.node?_put inside, if_neg other]
    exact kept place other

theorem replaceLink_ok {target path : String} {names : List String} (sound : disk.IsSound)
    (leads : disk.Leads path names) (nonempty : names ≠ [])
    (areNames : ∀ name ∈ names, IsName name) (fits : Fits disk.home names (.link target))
    (done : replaceLink target path disk = .ok () after) :
    Links disk (fun place made => place = disk.home ++ names ∧ made = target) after := by
  have directory : Fits disk.home names.dropLast .directory := Disk.fits_dropLast (.inl fits.1)
  have split := List.dropLast_concat_getLast nonempty
  obtain ⟨_, between, parents, later⟩ := Disk.bind_ok done
  rw [← split] at leads areNames
  have grows := Disk.makeParents_ok sound leads areNames directory parents
  rw [split] at leads areNames
  have leads := leads.of_home_eq grows.home
  have kept (place : Place) (_ : place ≠ disk.home ++ names) : Keeps disk between place :=
    keeps_of_grows grows
  obtain ⟨current, here, got, later⟩ := Disk.bind_ok later
  cases got
  simp only at later
  split at later
  · obtain ⟨_, emptied, removed, last⟩ := Disk.bind_ok later
    obtain ⟨rfl, other⟩ := Disk.remove_ok grows.sound leads areNames removed
    have inside : between.home ++ names ≠ [] := Disk.place_ne_nil nonempty
    have leads : (between.drop (between.home ++ names)).Leads path names := leads.of_home_eq rfl
    refine makeLink_links (grows.sound.drop nonempty other) grows.home ?_ leads nonempty areNames
      fits last
    intro place apart
    rw [grows.home] at inside
    rw [Keeps, grows.home, Disk.node?_drop inside, if_neg apart]
    exact kept place apart
  · exact makeLink_links grows.sound grows.home kept leads nonempty areNames fits later

/-- The link that an item calls for in the output directory, with the place where it stands. -/
def Calls (home : Place) (output : String) (item : Item) (place : Place) (target : String) : Prop :=
  ∃ stored path, item = .link stored path ∧ place = home ++ Location.namesOfEntry path ∧
    target = Location.join output stored

/-- An item whose link can be made. -/
def IsReady (home : Place) (output : String) (item : Item) : Prop :=
  ∀ stored path, item = .link stored path →
    IsEntry path ∧ Fits home (Location.namesOfEntry path) (.link (Location.join output stored))

theorem createItem_ok {item : Item} (sound : disk.IsSound) (directory : output = disk.absolute ".")
    (ready : IsReady disk.home output item) (done : createItem output item disk = .ok () after) :
    Links disk (Calls disk.home output item) after := by
  cases item with
  | file path =>
      cases done
      refine ⟨sound, rfl, ?_, fun _ _ => .inl rfl⟩
      rintro place ⟨_, _, _, link, _⟩
      cases link
  | link stored path =>
      obtain ⟨isEntry, fits⟩ := ready stored path rfl
      have leads := leads_of_isEntry sound.toIsRooted directory isEntry
      have links := replaceLink_ok sound leads isEntry.nonempty isEntry.areNames fits done
      refine ⟨links.sound, links.home, ?_, ?_⟩
      · rintro place ⟨_, _, _, same, rfl, rfl⟩
        cases same
        obtain ⟨target, ⟨_, rfl⟩, made⟩ := links.made _ ⟨_, rfl, rfl⟩
        exact ⟨_, ⟨stored, path, rfl, rfl, rfl⟩, made⟩
      · intro place apart
        exact links.kept place fun target ⟨here, same⟩ =>
          apart target ⟨stored, path, rfl, here, same⟩

/-- Making links one after the other makes all of them. -/
theorem each_createItem_ok {items : List Item} (sound : disk.IsSound)
    (directory : output = disk.absolute ".")
    (ready : ∀ item ∈ items, IsReady disk.home output item)
    (done : each (createItem output) items disk = .ok () after) :
    Links disk (fun place target => ∃ item ∈ items, Calls disk.home output item place target)
      after := by
  induction items generalizing disk with
  | nil =>
      cases done
      refine ⟨sound, rfl, ?_, fun _ _ => .inl rfl⟩
      rintro place ⟨_, _, none, _⟩
      cases none
  | cons item rest induction =>
      obtain ⟨here, others⟩ := List.forall_mem_cons.mp ready
      obtain ⟨_, between, made, later⟩ := Disk.bind_ok done
      have first := createItem_ok sound directory here made
      rw [← absolute_of_home_eq _ first.home] at directory
      rw [← first.home] at others
      have second := induction first.sound directory others later
      rw [first.home] at second
      refine ⟨second.sound, second.home.trans first.home, ?_, ?_⟩
      · rintro place ⟨target, other, member, calls⟩
        by_cases listed : ∃ target, ∃ other ∈ rest, Calls disk.home output other place target
        · obtain ⟨target, ⟨other, member, calls⟩, made⟩ := second.made place listed
          exact ⟨target, ⟨other, List.mem_cons_of_mem _ member, calls⟩, made⟩
        · rcases List.mem_cons.mp member with rfl | member
          · obtain ⟨target, calls, made⟩ := first.made place ⟨target, calls⟩
            refine ⟨target, ⟨other, List.mem_cons_self, calls⟩, ?_⟩
            have keeps := second.kept place fun target calls => listed ⟨target, calls⟩
            rcases keeps with same | ⟨free, _⟩
            · rw [same, made]
            · rw [made] at free
              cases free
          · exact absurd ⟨target, other, member, calls⟩ listed
      · intro place apart
        have one : Keeps disk between place :=
          first.kept place fun target calls => apart target ⟨item, List.mem_cons_self, calls⟩
        have two : Keeps between after place :=
          second.kept place fun target ⟨other, member, calls⟩ =>
            apart target ⟨other, List.mem_cons_of_mem _ member, calls⟩
        exact one.trans two

/-- Carrying out changes clears the places of what is removed, and then makes the links. -/
theorem carryOut_ok {changes : Changes Item} (sound : disk.IsSound)
    (areEntries : ∀ item ∈ changes.removed, IsEntry item.path)
    (ready : ∀ item ∈ changes.created, IsReady disk.home (disk.absolute ".") item)
    (done : changes.carryOut "." disk = .ok () after) :
    ∃ between,
      Clears disk
        (fun place => ∃ item ∈ changes.removed,
          place = disk.home ++ Location.namesOfEntry item.path) between ∧
      Links between
        (fun place target => ∃ item ∈ changes.created,
          Calls disk.home (disk.absolute ".") item place target) after := by
  obtain ⟨_, between, removed, made⟩ := Disk.bind_ok done
  have clears := each_removeItem_ok sound rfl areEntries removed
  have directory := (absolute_of_home_eq "." clears.home).symm
  rw [← clears.home] at ready
  have links := each_createItem_ok clears.sound directory ready made
  rw [clears.home] at links
  exact ⟨between, clears, links⟩

end Changes
end TagStore
