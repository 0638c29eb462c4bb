import TagStore.Lockfile.Format
import TagStore.Proofs.Index
import TagStore.Proofs.Json.Printer
import TagStore.Proofs.Tag.Text

/-!
# Lockfiles survive their file format

A lockfile is read back from its text if each of its tags is read back from its own.
-/

namespace TagStore

open Json.Reader (Takes takes_list takes_dictionary takes_field takes_record takes_text isSpace_nil)

namespace Lock

theorem map_ofText_map_toText {tags : List Tag} (plain : ∀ tag ∈ tags, tag.IsPlain) :
    (tags.map Tag.toText).map Tag.ofText = tags := by
  rw [List.map_map]
  exact (List.map_congr_left plain).trans tags.map_id

/-- A record is taken back. -/
theorem takes_compact (lock : Lock) (plain : ∀ tag ∈ lock.tags, tag.IsPlain) :
    Takes reader lock.toJson.compact.toList lock := by
  have source : Takes Json.Reader.text (Json.compact (.text lock.source)).toList lock.source :=
    takes_text lock.source
  have hash : Takes Json.Reader.text (Json.compact (.text lock.hash)).toList lock.hash :=
    takes_text lock.hash
  have tags : Takes (Json.Reader.list Json.Reader.text)
      (Json.compact (.array (lock.tags.map fun tag => .text tag.toText))).toList
      (lock.tags.map Tag.toText) := by
    have taken := takes_list (fun text => (Json.compact (.text text)).toList) isSpace_nil
      isSpace_nil fun text (_ : text ∈ lock.tags.map Tag.toText) => takes_text text
    rw [Json.toList_compact_array, List.map_map]
    rwa [List.map_map] at taken
  rw [toJson, Json.toList_compact_object]
  apply takes_record isSpace_nil isSpace_nil
  · exact .cons (takes_field rfl rfl isSpace_nil (source.bind fun _ => rfl))
      (.cons (takes_field rfl rfl isSpace_nil (hash.bind fun _ => rfl))
        (.cons (takes_field rfl rfl isSpace_nil (tags.bind fun _ => rfl)) .nil))
  · simp only [Draft.finish?, Option.getD_some, map_ofText_map_toText plain]

end Lock

namespace Lockfile

/-- The tags of all records are read back from their texts. -/
def IsPlain (lockfile : Lockfile) : Prop :=
  ∀ entry ∈ lockfile.locks.entries, ∀ tag ∈ entry.2.tags, tag.IsPlain

theorem takes_compact (lockfile : Lockfile) (plain : lockfile.IsPlain) :
    Takes reader lockfile.toText.toList lockfile := by
  have locks : Takes (Json.Reader.dictionary Lock.reader)
      (Json.compact (.object
        (lockfile.locks.entries.map fun entry => (entry.1, entry.2.toJson)))).toList
      lockfile.locks.entries := by
    have each (member : String × Lock) (listed : member ∈ lockfile.locks.entries) :=
      member.2.takes_compact (plain member listed)
    have taken := takes_dictionary (fun lock : Lock => lock.toJson.compact.toList) isSpace_nil
      isSpace_nil isSpace_nil each
    rw [Json.toList_compact_object, List.map_map]
    exact taken
  rw [toText, toJson, Json.toList_compact_object]
  apply takes_record isSpace_nil isSpace_nil
  · exact .cons (takes_field rfl rfl isSpace_nil (locks.bind fun _ => rfl)) .nil
  · simp

/-- A lockfile is read back from its text. -/
theorem ofBytes_toText (lockfile : Lockfile) (plain : lockfile.IsPlain) :
    ofBytes lockfile.toText.toUTF8 = .ok lockfile :=
  (lockfile.takes_compact plain).document

end Lockfile
end TagStore
