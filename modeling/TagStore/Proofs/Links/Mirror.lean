import TagStore.Proofs.Links.Changes
import TagStore.Proofs.Lockfile.Store

/-!
# Output directories that mirror a lockfile

An output directory mirrors a lockfile if the contents in its store are those with a digest in the
lockfile and its links are those of the tags in the lockfile.  Once the contents of another lockfile
are in the store, carrying out the changes between the two lockfiles makes the directory mirror the
other one.
-/

namespace TagStore

open Disk (storeName storedTarget)
open LinkTable (Gone changesBetween)

/-- The store and the links in the working directory are those of a lockfile. -/
structure Disk.Mirrors (disk : Disk) (lockfile : Lockfile) : Prop where
  sound : disk.IsSound
  addressed : disk.IsAddressed
  stored : ∀ hash, disk.IsStored hash ↔ lockfile.Has hash
  linked : ∀ names target, disk.node? (disk.home ++ names) = some (.link target) ↔
    ∃ hash, lockfile.Links names hash ∧ target = storedTarget disk.home hash

/-! ## What carrying out the changes between two lockfiles does -/

/-- A lockfile calls for a link where another one does not. -/
def Lockfile.LinksAnew (previous next : Lockfile) (names : List String) : Prop :=
  ∃ hash, next.Links names hash ∧ ¬previous.Links names hash

/-- A sound disk that differs from another one by the changes between two lockfiles. -/
structure Lockfile.Turns (previous next : Lockfile) (before after : Disk) : Prop where
  sound : after.IsSound
  home : after.home = before.home
  made : ∀ names, previous.LinksAnew next names → ∃ hash, next.Links names hash ∧
    after.node? (before.home ++ names) = some (.link (storedTarget before.home hash))
  cleared : ∀ names, ¬previous.LinksAnew next names → Gone previous next names →
    ∀ node, after.node? (before.home ++ names) = some node → node = .directory
  kept : ∀ names, ¬previous.LinksAnew next names → ¬Gone previous next names →
    Changes.Keeps before after (before.home ++ names)

namespace Lockfile

variable {disk before after : Disk} {previous next : Lockfile} {names : List String}
  {hash target : String}

/-- Carrying out the changes between two lockfiles clears what only the first calls for, and makes
the links that only the second calls for. -/
theorem turns_of_carryOut (previousTidy : previous.IsTidy) (nextTidy : next.IsTidy)
    (sound : before.IsSound)
    (done : (changesBetween previous next).carryOut "." before = .ok () after) :
    previous.Turns next before after := by
  have rooted := sound.toIsRooted
  have areEntries (item : Item) (member : item ∈ (changesBetween previous next).removed) :=
    (LinkTable.mem_removed_cases previousTidy nextTidy member).1
  have ready := LinkTable.isReady_of_mem_created rooted previousTidy nextTidy
  obtain ⟨between, clears, links⟩ := Changes.carryOut_ok sound areEntries ready done
  have created (names : List String) (target : String) :=
    @LinkTable.created_iff previous next names before rooted previousTidy nextTidy target
  have removed (names : List String) :=
    @LinkTable.removed_iff_gone previous next names previousTidy nextTidy before.home
  have unlinked {names : List String} (old : ¬previous.LinksAnew next names) :
      Changes.Keeps between after (before.home ++ names) := by
    apply links.kept
    intro target calls
    obtain ⟨hash, links, absent, -⟩ := (created names target).mp calls
    exact old ⟨hash, links, absent⟩
  refine ⟨links.sound, links.home.trans clears.home, ?_, ?_, ?_⟩
  · rintro names ⟨hash, anew, absent⟩
    obtain ⟨target, calls, made⟩ :=
      links.made _ ⟨_, (created names _).mpr ⟨hash, anew, absent, rfl⟩⟩
    obtain ⟨other, anew, -, rfl⟩ := (created names target).mp calls
    exact ⟨other, anew, made⟩
  · intro names old gone node there
    have free := clears.cleared _ ((removed names).mpr gone)
    rcases unlinked old with same | ⟨-, made⟩
    · cases there.symm.trans (same.trans free)
    · exact Option.some.inj (there.symm.trans made)
  · intro names old here
    have same := clears.kept _ fun gone => here ((removed names).mp gone)
    exact Changes.Keeps.trans (.inl same) (unlinked old)

theorem not_linksAnew_store (nextTidy : next.IsTidy) :
    ¬previous.LinksAnew next [storeName, hash] := by
  rintro ⟨_, links, -⟩
  exact (nextTidy.outside links).1 rfl

theorem gone_store_iff (previousTidy : previous.IsTidy) :
    Gone previous next [storeName, hash] ↔ previous.Has hash ∧ ¬next.Has hash := by
  constructor
  · rintro (⟨_, same, gone⟩ | ⟨_, links, _⟩)
    · cases same
      exact gone
    · exact absurd rfl (previousTidy.outside links).1
  · intro gone
    exact .inl ⟨hash, rfl, gone⟩

/-- The store after the changes has what it had before, but for what has gone. -/
theorem Turns.file_in_store_iff (turns : previous.Turns next before after)
    (previousTidy : previous.IsTidy) (nextTidy : next.IsTidy) {content : ByteArray} :
    after.node? (before.home ++ [storeName, hash]) = some (.file content) ↔
      before.node? (before.home ++ [storeName, hash]) = some (.file content) ∧
        ¬(previous.Has hash ∧ ¬next.Has hash) := by
  have old := @not_linksAnew_store previous next hash nextTidy
  have gone := @gone_store_iff previous next hash previousTidy
  by_cases here : previous.Has hash ∧ ¬next.Has hash
  · have cleared := turns.cleared _ old (gone.mpr here)
    constructor
    · intro there
      cases cleared _ there
    · intro both
      exact absurd here both.2
  · have keeps := turns.kept _ old fun away => here (gone.mp away)
    rw [keeps.file_iff]
    exact ⟨fun there => ⟨there, here⟩, And.left⟩

/-- The links after the changes are those that the second lockfile calls for. -/
theorem Turns.link_iff (turns : previous.Turns next before after)
    (previousTidy : previous.IsTidy) (nextTidy : next.IsTidy)
    (linked : ∀ names target, before.node? (before.home ++ names) = some (.link target) ↔
      ∃ hash, previous.Links names hash ∧ target = storedTarget before.home hash) :
    after.node? (before.home ++ names) = some (.link target) ↔
      ∃ hash, next.Links names hash ∧ target = storedTarget before.home hash := by
  constructor
  · intro there
    by_cases anew : previous.LinksAnew next names
    · obtain ⟨hash, links, made⟩ := turns.made names anew
      exact ⟨hash, links, Node.link.inj (Option.some.inj (there.symm.trans made))⟩
    by_cases gone : Gone previous next names
    · cases turns.cleared names anew gone _ there
    rw [(turns.kept names anew gone).link_iff, linked] at there
    obtain ⟨hash, links, rfl⟩ := there
    refine ⟨hash, Classical.byContradiction fun absent => gone ?_, rfl⟩
    exact .inr ⟨hash, links, absent⟩
  · rintro ⟨hash, links, rfl⟩
    by_cases anew : previous.LinksAnew next names
    · obtain ⟨other, again, made⟩ := turns.made names anew
      rw [made, nextTidy.hash_unique links again]
    have earlier : previous.Links names hash :=
      Classical.byContradiction fun absent => anew ⟨hash, links, absent⟩
    have kept : ¬Gone previous next names := by
      rintro (⟨_, rfl, -⟩ | ⟨other, again, absent⟩)
      · exact (previousTidy.outside earlier).1 rfl
      · exact absent (previousTidy.hash_unique earlier again ▸ links)
    rw [(turns.kept names anew kept).link_iff, linked]
    exact ⟨hash, earlier, rfl⟩

/-! ## From one lockfile to another -/

theorem Stocks.linked {new : String → Prop} (stocks : Stocks disk new after)
    (mirrors : disk.Mirrors previous) (previousTidy : previous.IsTidy) :
    after.node? (after.home ++ names) = some (.link target) ↔
      ∃ hash, previous.Links names hash ∧ target = storedTarget after.home hash := by
  by_cases inside : names.head? = some storeName
  · constructor
    · intro there
      exact absurd inside (stocks.sound.fits _ _ there).1
    · rintro ⟨hash, links, -⟩
      exact absurd inside (previousTidy.outside links).1
  · rw [stocks.home, stocks.outside names inside]
    exact mirrors.linked names target

/-- Storing what another lockfile has anew and carrying out the changes to it makes the output
directory mirror it. -/
theorem mirrors_of_turns {new : String → Prop} {between : Disk} (mirrors : disk.Mirrors previous)
    (previousTidy : previous.IsTidy) (nextTidy : next.IsTidy) (stocks : Stocks disk new between)
    (known : ∀ hash, next.Has hash → previous.Has hash ∨ new hash)
    (needed : ∀ hash, new hash → next.Has hash) (turns : previous.Turns next between after) :
    after.Mirrors next where
  sound := turns.sound
  addressed := by
    intro hash content there
    rw [turns.home, turns.file_in_store_iff previousTidy nextTidy] at there
    exact stocks.addressed hash content there.1
  stored := by
    intro hash
    have kept : after.IsStored hash ↔
        between.IsStored hash ∧ ¬(previous.Has hash ∧ ¬next.Has hash) := by
      simp only [Disk.IsStored, turns.home, turns.file_in_store_iff previousTidy nextTidy]
      constructor
      · rintro ⟨content, ⟨there, stays⟩, same⟩
        exact ⟨⟨content, there, same⟩, stays⟩
      · rintro ⟨⟨content, there, same⟩, stays⟩
        exact ⟨content, ⟨there, stays⟩, same⟩
    rw [kept, stocks.stored, mirrors.stored]
    constructor
    · rintro ⟨earlier | fresh, stays⟩
      · exact Classical.byContradiction fun absent => stays ⟨earlier, absent⟩
      · exact needed hash fresh
    · intro has
      exact ⟨known hash has, fun gone => gone.2 has⟩
  linked := by
    intro names target
    rw [turns.home]
    exact turns.link_iff previousTidy nextTidy fun names target =>
      stocks.linked mirrors previousTidy

end Lockfile
end TagStore
