import TagStore.Disk.Location
import TagStore.Index

/-!
# Disks

The directories, files and links below the root, each at its place, which is the list of names that
lead to it from the root.  A link holds the written path of what it points at.
-/

namespace TagStore

/-- What is at a place. -/
inductive Node where
  /-- A file with its content. -/
  | file (content : ByteArray)
  /-- A link to a written path. -/
  | link (target : String)
  /-- A directory. -/
  | directory

/-- Equality of nodes is decidable. -/
def Node.decideEq : (first second : Node) → Decidable (first = second)
  | .file first, .file second =>
    have := ByteArray.instDecidableEq first second
    decidable_of_iff (first = second) (by simp)
  | .link first, .link second => decidable_of_iff (first = second) (by simp)
  | .directory, .directory => isTrue rfl
  | .file _, .link _ | .file _, .directory | .link _, .file _ | .link _, .directory
  | .directory, .file _ | .directory, .link _ => isFalse (by simp)

instance : DecidableEq Node := Node.decideEq

/-- The names that lead from the root to a node. -/
abbrev Place := List String

/-- All nodes below the root, and the directory from which relative paths are followed. -/
structure Disk where
  /-- The nodes by place. -/
  nodes : Index Place Node := ∅
  /-- The working directory. -/
  home : Place := []
  deriving DecidableEq

/-- Why something cannot be done with a path. -/
inductive DiskError where
  /-- Nothing is there. -/
  | notFound
  /-- Something is there already. -/
  | exists
  /-- A directory is called for and something else is there. -/
  | notDirectory
  /-- A directory is there and something else is called for. -/
  | isDirectory
  /-- Links lead on and on. -/
  | tooManyLinks
  /-- A name or a path has too many bytes. -/
  | nameTooLong
  /-- A path has a character that no name may have. -/
  | brokenName
  deriving DecidableEq, Repr

/-- What the operating system says of an error. -/
def DiskError.message : DiskError → String
  | notFound => "No such file or directory (os error 2)"
  | «exists» => "File exists (os error 17)"
  | notDirectory => "Not a directory (os error 20)"
  | isDirectory => "Is a directory (os error 21)"
  | tooManyLinks => "Too many levels of symbolic links (os error 40)"
  | nameTooLong => "File name too long (os error 36)"
  | brokenName => "file name contained an unexpected NUL byte"

namespace Disk

/-- The node at a place; the root is a directory. -/
def node? (disk : Disk) (place : Place) : Option Node :=
  if place = [] then some .directory else disk.nodes.get? place

/-- The disk with a node at a place. -/
def put (disk : Disk) (place : Place) (node : Node) : Disk :=
  { disk with nodes := disk.nodes.insert place node }

/-- The disk without the node at a place. -/
def drop (disk : Disk) (place : Place) : Disk := { disk with nodes := disk.nodes.erase place }

/-- The nodes below a place, each at its place seen from there, in the order of their places. -/
def below (disk : Disk) (place : Place) : List (Place × Node) :=
  (disk.nodes.entries.filter fun entry => place.isPrefixOf entry.1 && entry.1 ≠ place).map
    fun entry => (entry.1.drop place.length, entry.2)

/-- Where a path leads: to a node, or to a free place in a directory. -/
structure Spot where
  /-- The place. -/
  place : Place
  /-- What is there. -/
  node : Option Node

/-- The number of links that are followed on the way to one place. -/
def linkLimit : Nat := 40

/-- What a path is followed for. -/
inductive Aim where
  /-- The node that it names, be it a link. -/
  | entry
  /-- The node that it leads to in the end. -/
  | target
  /-- A file that it leads to in the end or a free place for one. -/
  | file
  deriving DecidableEq, Repr

/-- Follow names from a directory.  A link on the way, or one at the end that is not itself aimed
at, leads `onward` with the names of its target and those that are left. -/
def walkNames (disk : Disk) (aim : Aim) (onward : List String → Place → Except DiskError Spot) :
    List String → Place → Except DiskError Spot
  | [], here => .ok ⟨here, some .directory⟩
  | name :: rest, here =>
    if Location.isIdle name then disk.walkNames aim onward rest here
    else if name = ".." then disk.walkNames aim onward rest here.dropLast
    else if aim = .file ∧ rest = [""] then .error .isDirectory
    else if Location.nameLimit < name.utf8ByteSize then .error .nameTooLong
    else
      let place := here ++ [name]
      match disk.node? place with
      | none => if rest = [] then .ok ⟨place, none⟩ else .error .notFound
      | some .directory => disk.walkNames aim onward rest place
      | some (.file content) =>
        if rest = [] then .ok ⟨place, some (.file content)⟩ else .error .notDirectory
      | some (.link target) =>
        if rest = [] ∧ aim = .entry then .ok ⟨place, some (.link target)⟩
        else
          onward (Location.namesBefore rest target)
            (if Location.isAbsolute target then [] else here)

/-- Follow names from a directory, and a limited number of links. -/
def walk (disk : Disk) (aim : Aim) : (limit : Nat) → List String → Place → Except DiskError Spot
  | 0 => disk.walkNames aim fun _ _ => .error .tooManyLinks
  | limit + 1 => disk.walkNames aim (disk.walk aim limit)

/-- Refuse a text that cannot be the path of anything. -/
def checkPath (path : String) : Except DiskError Unit :=
  if Location.isBroken path then .error .brokenName
  else if path = "" then .error .notFound
  else if Location.pathLimit ≤ path.utf8ByteSize then .error .nameTooLong
  else .ok ()

/-- Where a list of names leads that belongs to a written path. -/
def find (disk : Disk) (aim : Aim) (path : String) (names : List String) : Except DiskError Spot :=
  match checkPath path with
  | .error error => .error error
  | .ok _ => disk.walk aim linkLimit names (if Location.isAbsolute path then [] else disk.home)

/-- What a path leads to in the end. -/
def look (disk : Disk) (path : String) : Except DiskError Spot :=
  disk.find .target path (Location.names path)

/-- What a path names itself, be it a link. -/
def lookAtLink (disk : Disk) (path : String) : Except DiskError Spot :=
  disk.find .entry path (Location.names path)

/-- What a path names as an entry of its directory, with or without a slash at its end. -/
def lookAtEntry (disk : Disk) (path : String) : Except DiskError Spot :=
  disk.find .entry path (Location.namesOfEntry path)

/-- Where a path leads that is to have a file at its end. -/
def lookForFile (disk : Disk) (path : String) : Except DiskError Spot :=
  disk.find .file path (Location.names path)

/-- Whether a lookup has come to a node. -/
def isThere : Except DiskError Spot → Bool
  | .ok ⟨_, some _⟩ => true
  | _ => false

/-- Whether a path leads to a directory. -/
def isDirectory (disk : Disk) (path : String) : Bool :=
  match disk.look path with
  | .ok ⟨_, some .directory⟩ => true
  | _ => false

/-- The content of the file that a path leads to. -/
def read (disk : Disk) (path : String) : Except DiskError ByteArray :=
  match disk.look path with
  | .ok ⟨_, some (.file content)⟩ => .ok content
  | .ok ⟨_, some _⟩ => .error .isDirectory
  | .ok ⟨_, none⟩ => .error .notFound
  | .error error => .error error

/-- The working directory as a written path. -/
def homePath (disk : Disk) : String := "/" ++ "/".intercalate disk.home

/-- A path from the root. -/
def absolute (disk : Disk) (path : String) : String :=
  if Location.isAbsolute path then path else Location.join disk.homePath path

end Disk
end TagStore
