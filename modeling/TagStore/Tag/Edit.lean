import TagStore.Tag.Basic

/-!
# Tag edits

An edit adds a tag to a file or takes one away.  It is written as `+` or `-` and the text of the
tag, whose segments are words and whose value, if there is one, is a non-empty line.
-/

namespace TagStore
namespace Tag

/-- What an edit does with its tag. -/
inductive Action where
  /-- Give the tag to the file. -/
  | add
  /-- Take the tag from the file. -/
  | remove
  deriving DecidableEq, Repr

/-- The character that opens an edit. -/
def Action.sign : Action → Char
  | add => '+'
  | remove => '-'

/-- A change to the tags of a file. -/
structure Edit where
  /-- Whether the tag comes or goes. -/
  action : Action
  /-- The tag in question. -/
  tag : Tag
  deriving DecidableEq, Repr

namespace Edit

/-- The written form of an edit. -/
def toText (edit : Edit) : String :=
  String.singleton edit.action.sign ++ edit.tag.toText

/-- Whether a text can be a segment of an edited tag. -/
def isWord (text : String) : Bool :=
  text ≠ "" && text.toList.all Text.isWordChar

/-- Whether a text can be the value of an edited tag. -/
def isValue (text : String) : Bool :=
  text ≠ "" && text.toList.all (· ≠ '\n')

/-- Whether an edit may name a tag. -/
def isEditable (tag : Tag) : Bool :=
  tag.path.all isWord && tag.value.all isValue

/-- Read the tag of an edit. -/
def tagOfText? (text : String) : Option Tag :=
  let tag := Tag.ofText text
  if isEditable tag then some tag else none

/-- Read an edit. -/
def ofText? (text : String) : Option Edit :=
  match text.toList with
  | '+' :: rest => (tagOfText? (String.ofList rest)).map (⟨.add, ·⟩)
  | '-' :: rest => (tagOfText? (String.ofList rest)).map (⟨.remove, ·⟩)
  | _ => none

/-- What is said of a text that is no edit. -/
def refusal (text : String) : String :=
  "expected a tag such as +path or -path:value, got " ++ text

/-- Read an edit, or say what is wrong with the text. -/
def ofText (text : String) : Except String Edit :=
  match ofText? text with
  | some edit => .ok edit
  | none => .error (refusal text)

end Edit
end Tag
end TagStore
