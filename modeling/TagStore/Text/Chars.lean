/-!
# Character classes and cuts of text

Words are made of ASCII letters, digits and the underscore; blanks are the characters with the
Unicode property `White_Space`.  Text is cut either at every separator or at the first one.
-/

namespace TagStore
namespace Text

/-- The code points with the property `White_Space`, as closed ranges. -/
def blankRanges : List (Nat × Nat) :=
  [(0x09, 0x0D), (0x20, 0x20), (0x85, 0x85), (0xA0, 0xA0), (0x1680, 0x1680), (0x2000, 0x200A),
    (0x2028, 0x2029), (0x202F, 0x202F), (0x205F, 0x205F), (0x3000, 0x3000)]

/-- Whether a character is white space. -/
def isBlank (c : Char) : Bool :=
  blankRanges.any fun range => range.1 ≤ c.toNat && c.toNat ≤ range.2

/-- Whether a character may stand in a word. -/
def isWordChar (c : Char) : Bool :=
  c.isAlphanum || c == '_'

/-- The lower-case hexadecimal digit of a number below sixteen. -/
def hexDigit (digit : Nat) : Char :=
  Char.ofNat (if digit < 10 then 48 + digit else 87 + digit)

/-- The parts of a text between the separators, empty ones included. -/
def pieces (separator : Char) (text : String) : List String :=
  (text.toList.splitOn separator).map String.ofList

/-- The characters before and after the first separator, if there is one. -/
def cutChars (separator : Char) : List Char → Option (List Char × List Char)
  | [] => none
  | c :: rest =>
    if c = separator then some ([], rest)
    else (cutChars separator rest).map fun (before, after) => (c :: before, after)

/-- The text before and after the first separator, if there is one. -/
def cut (separator : Char) (text : String) : Option (String × String) :=
  (cutChars separator text.toList).map fun (before, after) =>
    (String.ofList before, String.ofList after)

/-- Whether a text stands somewhere in another. -/
def occursIn (part : List Char) : List Char → Bool
  | [] => part.isEmpty
  | c :: rest => part.isPrefixOf (c :: rest) || occursIn part rest

end Text
end TagStore
