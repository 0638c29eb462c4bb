import TagStore.Text.Chars

/-!
# Tags

A tag has a path of segments and sometimes a value.  Its text joins the segments by dots and sets
the value off by a colon, so the text `fur.black` has two segments and `name:fido` has a value.
-/

namespace TagStore

/-- One tag of a file. -/
structure Tag where
  /-- The segments, outermost first. -/
  path : List String
  /-- What the tag says of the file beyond its path. -/
  value : Option String := none
  deriving DecidableEq, Repr

namespace Tag

/-- The tag with a dotted path and a given value. -/
def ofPath (dotted : String) (value : Option String) : Tag :=
  ⟨Text.pieces '.' dotted, value⟩

/-- Read a tag; the value starts after the first colon. -/
def ofText (text : String) : Tag :=
  match Text.cut ':' text with
  | some (dotted, value) => ofPath dotted (some value)
  | none => ofPath text none

/-- The segments joined by dots. -/
def dottedPath (tag : Tag) : String := ".".intercalate tag.path

/-- The written form of a tag. -/
def toText (tag : Tag) : String :=
  match tag.value with
  | some value => tag.dottedPath ++ ":" ++ value
  | none => tag.dottedPath

end Tag
end TagStore
