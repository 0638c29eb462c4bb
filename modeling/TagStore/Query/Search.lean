import TagStore.Query.Reader

/-!
# Reading a query by searching

Here the closing bracket of a group and the closing quote of a value are searched for from where
they open, within the text at hand and with nothing known beforehand.  The contents of a group are
read as a text of their own.
-/

namespace TagStore
namespace Query
namespace Search

/-- The number of characters before the first quote of a text. -/
def quote (text : List Char) : Option Nat := text.findIdx? (· == '"')

/-- The number of characters before the bracket that closes a group, in a text inside of the group
and of `depth` groups in it.  A quote after a colon hides everything up to the first quote at least
two places further on, if there is one. -/
def inside (depth : Nat) (afterColon : Bool) : List Char → Option Nat
  | [] => none
  | c :: rest =>
    if c = ']' then
      match depth with
      | 0 => some 0
      | depth + 1 => (inside depth false rest).map (· + 1)
    else if c = '[' then (inside (depth + 1) false rest).map (· + 1)
    else
      match if c = '"' && afterColon then quote (rest.drop 1) else none with
      | some size => (inside depth false (rest.drop (size + 2))).map (· + (size + 3))
      | none => (inside depth (c == ':') rest).map (· + 1)
  termination_by text => text.length
  decreasing_by all_goals simp only [List.length_cons, List.length_drop]; omega

/-- Quotes and brackets as they are found by searching. -/
def lookahead : Lookahead Char where
  char := id
  quote := quote
  inside _ text := inside 0 false text

end Search

/-- Read a query by searching for each closing quote and bracket. -/
def parseBySearch (text : String) : Except ParseError Query := Search.lookahead.read text.toList

end Query
end TagStore
