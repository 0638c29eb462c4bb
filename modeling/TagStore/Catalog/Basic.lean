import TagStore.Query.Match
import TagStore.Tag.Edit
import TagStore.Tag.Entry

/-!
# Catalogs

A catalog lists files by identifier, each with its source and its tag entries.
-/

namespace TagStore

/-- What a catalog says of a file. -/
structure FileRecord where
  /-- Where the content comes from. -/
  source : String
  /-- The tag entries, in order. -/
  entries : List Entry := []
  deriving DecidableEq

namespace FileRecord

/-- The tags of a file, entry by entry. -/
def tags (file : FileRecord) : List Tag := file.entries.flatMap Entry.tags

/-- Carry out an edit.  A tag that the file has is not added again; a tag is removed wherever it
stands. -/
def apply (file : FileRecord) (edit : Tag.Edit) : FileRecord :=
  match edit.action with
  | .add =>
    if file.tags.contains edit.tag then file
    else { file with entries := file.entries ++ [Entry.ofTag edit.tag] }
  | .remove => { file with entries := Entry.removeAll edit.tag file.entries }

/-- Carry out edits in order. -/
def applyAll (file : FileRecord) (edits : List Tag.Edit) : FileRecord := edits.foldl apply file

/-- A file that begins with the tags that the edits add. -/
def ofEdits (source : String) (edits : List Tag.Edit) : FileRecord :=
  ⟨source, (edits.filter (·.action = .add)).map fun edit => Entry.ofTag edit.tag⟩

end FileRecord

/-- The files of a database. -/
structure Catalog where
  /-- Each file under its identifier. -/
  files : Index String FileRecord := ∅
  deriving DecidableEq

namespace Catalog

/-- The files that a query matches. -/
def search (catalog : Catalog) (query : Query) : Index String FileRecord :=
  catalog.files.filter fun _ file => query.isMatch file.tags

/-- The catalog with a file more. -/
def add (catalog : Catalog) (id : String) (file : FileRecord) : Catalog :=
  ⟨catalog.files.insert id file⟩

/-- The catalog without the files that a query matches. -/
def remove (catalog : Catalog) (query : Query) : Catalog :=
  ⟨catalog.files.filter fun _ file => !query.isMatch file.tags⟩

/-- The catalog after edits of the files that a query matches. -/
def retag (catalog : Catalog) (query : Query) (edits : List Tag.Edit) : Catalog :=
  ⟨catalog.files.map fun _ file => if query.isMatch file.tags then file.applyAll edits else file⟩

/-- The first number from a given one on that is not the identifier of a file.  Among one number
more than there are files, one is free. -/
def freshId (catalog : Catalog) (clock : Nat) : String :=
  let candidates := (List.range (catalog.files.size + 1)).map fun later => toString (clock + later)
  (candidates.find? fun id => !catalog.files.contains id).getD (toString clock)

end Catalog
end TagStore
