import TagStore.Index
import TagStore.Tag.Basic

/-!
# Tag entries

A catalog lists the tags of a file as entries.  An entry is either the text of one tag or a mapping
from dotted paths to values that stands for one tag each.
-/

namespace TagStore

/-- One element of a file's tag list. -/
inductive Entry where
  /-- The text of a single tag. -/
  | plain (text : String)
  /-- Values by dotted path. -/
  | mapping (values : Index String String)
  deriving DecidableEq

namespace Entry

/-- The tags an entry stands for, those of a mapping in key order. -/
def tags : Entry → List Tag
  | plain text => [Tag.ofText text]
  | mapping values => values.entries.map fun (path, value) => Tag.ofPath path (some value)

/-- The entry that records a tag: a mapping if it has a value, its path as text otherwise. -/
def ofTag (tag : Tag) : Entry :=
  match tag.value with
  | some value => mapping (Index.insert ∅ tag.dottedPath value)
  | none => plain tag.dottedPath

/-- The entry without a tag.  A plain entry cannot shrink and stays as it is. -/
def without (tag : Tag) : Entry → Entry
  | plain text => plain text
  | mapping values => mapping (values.filter fun path value => Tag.ofPath path (some value) ≠ tag)

/-- Whether taking a tag out of an entry leaves anything of it. -/
def survives (tag : Tag) : Entry → Bool
  | plain text => Tag.ofText text ≠ tag
  | mapping values => (values.filter fun path value => Tag.ofPath path (some value) ≠ tag).size ≠ 0

/-- Take a tag out of every entry and leave out the entries of which nothing is left. -/
def removeAll (tag : Tag) (entries : List Entry) : List Entry :=
  (entries.filter (survives tag)).map (without tag)

end Entry
end TagStore
