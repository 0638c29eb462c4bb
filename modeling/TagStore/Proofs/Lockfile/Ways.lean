import TagStore.Lockfile.Store

/-!
# Ways of finding a digest

The digest of a file is recorded, or it is that of the content of its source.  That is read and kept
in the store, unless the run is dry.  Reading it can fail, and so can keeping it.
-/

namespace TagStore
namespace Lockfile

variable {previous : Lockfile} {id hash : String} {file : FileRecord}

/-- The digest that is known of a file is that of its record, if this has the source of the file. -/
theorem knownHash?_eq_some_iff :
    previous.knownHash? id file = some hash ↔
      ∃ lock, previous.locks.get? id = some lock ∧ lock.source = file.source ∧
        lock.hash = hash := by
  simp only [knownHash?, Option.bind_eq_some_iff, Option.ite_none_right_eq_some, Option.some.injEq]

theorem hashOf_known (known : previous.knownHash? id file = some hash) (output : String)
    (dry : Bool) (disk : Disk) : hashOf previous output dry id file disk = .ok hash disk := by
  simp only [hashOf, known]
  rfl

theorem hashOf_unknown (unknown : previous.knownHash? id file = none) (output : String)
    (dry : Bool) : hashOf previous output dry id file = store output dry file.source := by
  simp only [hashOf, unknown]

/-- What comes of finding the digest of a source. -/
inductive StoreWay (output : String) (dry : Bool) (source : String) (disk : Disk) :
    EStateM.Result Failure Disk String → Prop
  /-- The content cannot be read. -/
  | unread {failure : Failure} : readSource disk source = .error failure →
      StoreWay output dry source disk (.error failure disk)
  /-- The run is dry. -/
  | dry {content : ByteArray} : dry = true → readSource disk source = .ok content →
      StoreWay output dry source disk (.ok (digest content) disk)
  /-- The content is kept. -/
  | kept {content : ByteArray} {after : Disk} : dry = false →
      readSource disk source = .ok content →
      keep output (digest content) content disk = .ok () after →
      StoreWay output dry source disk (.ok (digest content) after)
  /-- The content cannot be kept. -/
  | unkept {content : ByteArray} {error : DiskError} {after : Disk} : dry = false →
      readSource disk source = .ok content →
      keep output (digest content) content disk = .error error after →
      StoreWay output dry source disk (.error (.disk error) after)

theorem store_way (output : String) (dry : Bool) (source : String) (disk : Disk) :
    StoreWay output dry source disk (store output dry source disk) := by
  rw [store]
  cases read : readSource disk source with
  | error failure => exact .unread read
  | ok content =>
      cases dry with
      | true => exact .dry rfl read
      | false =>
          simp only [Bool.false_eq_true, if_false]
          cases kept : keep output (digest content) content disk with
          | ok _ after => exact .kept rfl read kept
          | error error after => exact .unkept rfl read kept

end Lockfile
end TagStore
