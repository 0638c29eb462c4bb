/-!
# Written paths

A path as it is written: names set apart by slashes, from the root if there is a slash in front and
from the working directory otherwise.  Repeated slashes and the name `.` make no difference except
that the name `.` may begin a relative path.
-/

namespace TagStore
namespace Location

/-- Whether a path starts at the root. -/
def isAbsolute (path : String) : Bool := path.toList.head? = some '/'

/-- Whether a path ends in a slash. -/
def endsInSlash (path : String) : Bool := path.toList.getLast? = some '/'

/-- The parts of a path between the slashes. -/
def parts (path : String) : List String := (path.toList.splitOn '/').map String.ofList

/-- A path seen from a directory; an absolute one stays as it is. -/
def join (directory path : String) : String :=
  if isAbsolute path || directory = "" then path
  else if endsInSlash directory then directory ++ path
  else directory ++ "/" ++ path

/-- Whether a part of a path means nothing by itself. -/
def isIdle (part : String) : Bool := part = "" || part = "."

/-- The path without its last name; there is none if the path has no name. -/
def parent? (path : String) : Option String :=
  let all := parts path
  let dotted := !isAbsolute path && all.head? = some "."
  let start := if isAbsolute path then "/" else if dotted then "./" else ""
  let inner := if isAbsolute path || dotted then all.drop 1 else all
  match inner.reverse.dropWhile isIdle with
  | [] => if dotted then some "" else none
  | _ :: rest =>
    match (rest.dropWhile isIdle).reverse with
    | [] => some (if dotted then "." else start)
    | kept => some (start ++ "/".intercalate kept)

/-- The names of a path without regard to a slash at its end. -/
def namesOfEntry (path : String) : List String := (parts path).filter (· ≠ "")

/-- The names to follow when a path is looked up.  A slash at the end counts as an empty name, which
calls for a directory. -/
def names (path : String) : List String :=
  namesOfEntry path ++ if endsInSlash path then [""] else []

/-- The names to follow when a path is looked up on the way to further names. -/
def namesBefore (rest : List String) (path : String) : List String :=
  if rest = [] then names path else namesOfEntry path ++ rest

/-- The number of bytes that a path has to stay below. -/
def pathLimit : Nat := 4096

/-- The number of bytes that a name may have. -/
def nameLimit : Nat := 255

/-- Whether a path has a character that no name may have. -/
def isBroken (path : String) : Bool := path.toList.contains '\x00'

end Location
end TagStore
