import TagStore.Catalog.Basic
import TagStore.Json.Printer
import TagStore.Json.Reader

/-!
# The file format of catalogs

A catalog is an object whose member `files` has the files under their identifiers.  A file has the
member `source` and, unless it is empty, the list `tags`, whose elements are texts and objects of
texts.  A catalog is written with indentation.
-/

namespace TagStore

namespace Entry

/-- The written form of an entry. -/
def toJson : Entry → Json
  | plain text => .text text
  | mapping values => .object (values.entries.map fun (path, value) => (path, .text value))

/-- The members of an object, if all of them are texts. -/
def textMembers? : List (String × Json) → Option (List (String × String))
  | [] => some []
  | (path, .text value) :: rest => (textMembers? rest).map ((path, value) :: ·)
  | _ => none

/-- The entry that a value stands for; of equal paths the last one counts. -/
def ofJson? : Json → Option Entry
  | .text text => some (plain text)
  | .object members => (textMembers? members).map fun values => mapping (Index.ofList values)
  | _ => none

/-- Take an entry with a limited number of brackets inside of each other. -/
def reader (depth : Nat) : Json.Reader Entry := do
  match ofJson? (← Json.Reader.value true depth) with
  | some entry => pure entry
  | none => throw .unsuitable

/-- The number of brackets that may be inside of each other in a text. -/
def depthLimit : Nat := 127

end Entry

namespace FileRecord

/-- The written form of a file. -/
def toJson (file : FileRecord) : Json :=
  .object (("source", .text file.source) ::
    if file.entries.isEmpty then [] else [("tags", .array (file.entries.map Entry.toJson))])

/-- A file of which some fields have been read. -/
structure Draft where
  /-- The source, once it is known. -/
  source : Option String := none
  /-- The entries, once they are known. -/
  entries : Option (List Entry) := none

/-- The file, if nothing needed is missing. -/
def Draft.finish? (draft : Draft) : Option FileRecord :=
  draft.source.map fun source => ⟨source, draft.entries.getD []⟩

/-- Take a file. -/
def reader : Json.Reader FileRecord :=
  Json.Reader.record
    [⟨"source", (·.source.isSome), fun draft => do
        pure { draft with source := some (← Json.Reader.text) }⟩,
      ⟨"tags", (·.entries.isSome), fun draft => do
        let entries ← Json.Reader.list (Entry.reader (Entry.depthLimit - 4))
        pure { draft with entries := some entries }⟩]
    {} Draft.finish?

end FileRecord

namespace Catalog

/-- The written form of files under their identifiers. -/
def filesToJson (files : Index String FileRecord) : Json :=
  .object (files.entries.map fun (id, file) => (id, file.toJson))

/-- The written form of a catalog. -/
def toJson (catalog : Catalog) : Json := .object [("files", filesToJson catalog.files)]

/-- The text of a catalog. -/
def toText (catalog : Catalog) : String := catalog.toJson.pretty

/-- Take a catalog. -/
def reader : Json.Reader Catalog :=
  Json.Reader.record
    [⟨"files", Option.isSome, fun _ => do
        pure (some (Index.ofList (← Json.Reader.dictionary FileRecord.reader)))⟩]
    (none : Option (Index String FileRecord)) fun files => some ⟨files.getD ∅⟩

/-- Read a catalog. -/
def ofBytes (bytes : ByteArray) : Except Json.Flaw Catalog := Json.Reader.document reader bytes

end Catalog
end TagStore
