import TagStore.Catalog.Format
import TagStore.Proofs.Index
import TagStore.Proofs.Json.Printer

/-!
# Catalogs survive their file format
-/

namespace TagStore

open Json.Reader (Takes takes_list takes_dictionary takes_field takes_object takes_record takes_text
  takes_text_value isSpace_blank)
open Json (isSpace_newline)

namespace Entry

theorem textMembers?_map (values : List (String × String)) :
    textMembers? (values.map fun (path, value) => (path, Json.text value)) = some values := by
  induction values with
  | nil => rfl
  | cons value rest induction => simp [textMembers?, induction]

theorem ofJson?_toJson (entry : Entry) : ofJson? entry.toJson = some entry := by
  cases entry with
  | plain text => rfl
  | mapping values => simp [toJson, ofJson?, textMembers?_map]

/-- An indented entry is taken back. -/
theorem takes_pretty (entry : Entry) (level depth : Nat) :
    Takes (reader (depth + 1)) (entry.toJson.prettyAt level).toList entry := by
  have value : Takes (Json.Reader.value true (depth + 1)) (entry.toJson.prettyAt level).toList
      entry.toJson := by
    cases entry with
    | plain text => exact takes_text_value (depth + 1) text
    | mapping values =>
        rw [toJson, Json.toList_prettyAt_object]
        apply takes_object (fun value => (value.prettyAt (level + 1)).toList) (isSpace_newline _)
          (isSpace_newline _) isSpace_blank
        intro member listed
        obtain ⟨entry, _, rfl⟩ := List.mem_map.mp listed
        exact takes_text_value depth entry.2
  apply value.bind
  intro rest
  simp only [ofJson?_toJson]
  rfl

end Entry

namespace FileRecord

/-- An indented file is taken back. -/
theorem takes_pretty (file : FileRecord) (level : Nat) :
    Takes reader (file.toJson.prettyAt level).toList file := by
  have source : Takes Json.Reader.text (Json.prettyAt (level + 1) (.text file.source)).toList
      file.source := takes_text file.source
  have entries : Takes (Json.Reader.list (Entry.reader (Entry.depthLimit - 4)))
      (Json.prettyAt (level + 1) (.array (file.entries.map Entry.toJson))).toList file.entries := by
    rw [Json.toList_prettyAt_array, List.map_map]
    exact takes_list (fun entry : Entry => (entry.toJson.prettyAt (level + 1 + 1)).toList)
      (isSpace_newline _) (isSpace_newline _) fun entry _ => entry.takes_pretty (level + 1 + 1) 122
  rcases file with ⟨path, list⟩
  rw [toJson, Json.toList_prettyAt_object]
  cases list with
  | nil =>
      apply takes_record (isSpace_newline _) (isSpace_newline _)
      · exact .cons (takes_field rfl rfl isSpace_blank (source.bind fun _ => rfl)) .nil
      · rfl
  | cons first rest =>
      apply takes_record (isSpace_newline _) (isSpace_newline _)
      · exact .cons (takes_field rfl rfl isSpace_blank (source.bind fun _ => rfl))
          (.cons (takes_field rfl rfl isSpace_blank (entries.bind fun _ => rfl)) .nil)
      · rfl

end FileRecord

namespace Catalog

theorem takes_pretty (catalog : Catalog) : Takes reader catalog.toText.toList catalog := by
  have files : Takes (Json.Reader.dictionary FileRecord.reader)
      (Json.prettyAt 1 (filesToJson catalog.files)).toList catalog.files.entries := by
    have each (member : String × FileRecord) (_ : member ∈ catalog.files.entries) :=
      member.2.takes_pretty 2
    have taken := takes_dictionary (fun file : FileRecord => (file.toJson.prettyAt 2).toList)
      (isSpace_newline 2) (isSpace_newline 1) isSpace_blank each
    rw [filesToJson, Json.toList_prettyAt_object, List.map_map]
    exact taken
  rw [toText, Json.pretty, toJson, Json.toList_prettyAt_object]
  apply takes_record (isSpace_newline _) (isSpace_newline _)
  · exact .cons (takes_field rfl rfl isSpace_blank (files.bind fun _ => rfl)) .nil
  · simp

/-- A catalog is read back from its text. -/
theorem ofBytes_toText (catalog : Catalog) : ofBytes catalog.toText.toUTF8 = .ok catalog :=
  catalog.takes_pretty.document

end Catalog
end TagStore
