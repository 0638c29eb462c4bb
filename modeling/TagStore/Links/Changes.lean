import TagStore.Json.Printer
import TagStore.Links.Basic

/-!
# Changes between two sets of links

The changes from one table of links to another list what has to be created and what has to be
removed.  With a stored file that is no longer listed all of its links go.
-/

namespace TagStore

/-- What is in one list and not in another. -/
structure Changes (α : Type) where
  /-- What is only in the later list. -/
  created : List α
  /-- What is only in the earlier list. -/
  removed : List α
  deriving DecidableEq, Repr

namespace Changes

variable {α : Type}

/-- Whether nothing changes. -/
def isEmpty (changes : Changes α) : Bool := changes.created.isEmpty && changes.removed.isEmpty

/-- The changes from one list to another, in the order of each. -/
def between [DecidableEq α] (before after : List α) : Changes α where
  created := after.filter fun item => !before.contains item
  removed := before.filter fun item => !after.contains item

end Changes

/-- Something in the output directory. -/
inductive Item where
  /-- A stored file. -/
  | file (path : String)
  /-- A link at a path to a stored file. -/
  | link (stored path : String)
  deriving DecidableEq, Repr

namespace Item

/-- Where the item stands. -/
def path : Item → String
  | file path => path
  | link _ path => path

/-- The item as a text. -/
def toText : Item → String
  | file path => path
  | link stored path => stored ++ " -> " ++ path

/-- The written form of an item. -/
def toJson : Item → Json
  | file path => .object [("type", .text "file"), ("path", .text path)]
  | link stored path => .object [("type", .text "link"), ("from", .text stored), ("to", .text path)]

end Item

namespace LinkTable

/-- The changes of the listed stored files. -/
def storedChanges (previous next : LinkTable) : Changes String :=
  Changes.between previous.links.keys next.links.keys

/-- The changes of the links to one stored file. -/
def linkChanges (previous next : LinkTable) (stored : String) : Changes Item :=
  let changes := Changes.between (previous.of stored) (next.of stored)
  ⟨changes.created.map (Item.link stored), changes.removed.map (Item.link stored)⟩

/-- The changes from one table to another: first the stored files, then the links of those that are
gone, then the links of those that are listed. -/
def changes (previous next : LinkTable) : Changes Item :=
  let stored := previous.storedChanges next
  let links := next.links.keys.map (previous.linkChanges next)
  { created := stored.created.map Item.file ++ links.flatMap (·.created)
    removed := stored.removed.map Item.file ++
      stored.removed.flatMap (fun gone => (previous.of gone).map (Item.link gone)) ++
      links.flatMap (·.removed) }

end LinkTable

namespace Changes

/-- The changes as lines, each with a sign in front. -/
def toText (changes : Changes Item) : String :=
  "\n".intercalate (changes.created.map (fun item => "+ " ++ item.toText) ++
    changes.removed.map (fun item => "- " ++ item.toText))

/-- The written form of the changes. -/
def toJson (changes : Changes Item) : Json :=
  .object [("created", .array (changes.created.map Item.toJson)),
    ("removed", .array (changes.removed.map Item.toJson))]

end Changes
end TagStore
