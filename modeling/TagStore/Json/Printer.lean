import TagStore.Json.Basic
import TagStore.Text.Chars

/-!
# Written JSON

Values are written either without any spaces or indented by two spaces a level.  In texts the quote,
the backslash and the characters below the space are escaped, and nothing else is.
-/

namespace TagStore
namespace Json

/-- The letters that stand for characters after a backslash when a text is written. -/
def escapeLetters : List (Char × Char) :=
  [('"', '"'), ('\\', '\\'), ('\x08', 'b'), ('\x0C', 'f'), ('\n', 'n'), ('\r', 'r'), ('\t', 't')]

/-- A character as it is written in a text. -/
def escape (c : Char) : List Char :=
  match escapeLetters.lookup c with
  | some letter => ['\\', letter]
  | none =>
    if c.toNat < 0x20 then
      ['\\', 'u', '0', '0', Text.hexDigit (c.toNat / 16), Text.hexDigit (c.toNat % 16)]
    else [c]

/-- A text between quotes. -/
def quoted (text : String) : String :=
  "\"" ++ String.ofList (text.toList.flatMap escape) ++ "\""

mutual

/-- A value without spaces. -/
def compact : Json → String
  | null => "null"
  | bool value => if value then "true" else "false"
  | number spelling => spelling
  | text value => quoted value
  | array items => "[" ++ ",".intercalate (compactItems items) ++ "]"
  | object members => "\x7b" ++ ",".intercalate (compactMembers members) ++ "\x7d"

/-- The items of an array without spaces. -/
def compactItems : List Json → List String
  | [] => []
  | item :: rest => item.compact :: compactItems rest

/-- The members of an object without spaces. -/
def compactMembers : List (String × Json) → List String
  | [] => []
  | (name, value) :: rest => (quoted name ++ ":" ++ value.compact) :: compactMembers rest

end

/-- A line break and the indentation of a level. -/
def newline (level : Nat) : String := "\n" ++ "".pushn ' ' (2 * level)

/-- Lines of one level between brackets; without any there is no line break. -/
def block (opening closing : String) (level : Nat) (lines : List String) : String :=
  match lines with
  | [] => opening ++ closing
  | _ =>
    opening ++ newline (level + 1) ++ ("," ++ newline (level + 1)).intercalate lines ++
      newline level ++ closing

mutual

/-- A value indented for a level. -/
def prettyAt (level : Nat) : Json → String
  | array items => block "[" "]" level (prettyItems (level + 1) items)
  | object members => block "\x7b" "\x7d" level (prettyMembers (level + 1) members)
  | null => "null"
  | bool value => if value then "true" else "false"
  | number spelling => spelling
  | text value => quoted value

/-- The items of an array, indented. -/
def prettyItems (level : Nat) : List Json → List String
  | [] => []
  | item :: rest => prettyAt level item :: prettyItems level rest

/-- The members of an object, indented. -/
def prettyMembers (level : Nat) : List (String × Json) → List String
  | [] => []
  | (name, value) :: rest =>
    (quoted name ++ ": " ++ prettyAt level value) :: prettyMembers level rest

end

/-- A value with one item or member a line. -/
def pretty (value : Json) : String := prettyAt 0 value

end Json
end TagStore
