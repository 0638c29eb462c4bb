import TagStore.Query.Basic

/-!
# The grammar of queries

A query is any sequence of blanks and expressions; an expression is a test or a query in brackets.
A test has a sign, words joined by dots, and possibly a colon and a value.  A value is a word, or a
quoted text with at least one character of which only the first may be a quote.
-/

namespace TagStore
namespace Query

/-- A non-empty text of word characters. -/
def IsWord (text : List Char) : Prop := text ≠ [] ∧ ∀ c ∈ text, Text.isWordChar c

/-- A text writes a path if it joins the segments by dots and all of them are words. -/
inductive WritesPath : List Char → List String → Prop
  /-- A single word. -/
  | word {word : List Char} : IsWord word → WritesPath word [String.ofList word]
  /-- A word, a dot and a path. -/
  | dot {word rest : List Char} {path : List String} : IsWord word → WritesPath rest path →
      WritesPath (word ++ '.' :: rest) (String.ofList word :: path)

/-- A text writes a value as a word or between quotes. -/
inductive WritesValue : List Char → String → Prop
  /-- A word writes itself. -/
  | bare {word : List Char} : IsWord word → WritesValue word (String.ofList word)
  /-- A quoted text. -/
  | quoted {first : Char} {rest : List Char} : '"' ∉ rest →
      WritesValue ('"' :: first :: (rest ++ ['"'])) (String.ofList (first :: rest))

/-- A text writes a test. -/
inductive WritesTest : List Char → TagTest → Prop
  /-- A test of the path alone. -/
  | path {kind : Kind} {text : List Char} {path : List String} : WritesPath text path →
      WritesTest (kind.sign :: text) ⟨kind, path, none⟩
  /-- A test of path and value. -/
  | value {kind : Kind} {text written : List Char} {path : List String} {value : String} :
      WritesPath text path → WritesValue written value →
      WritesTest (kind.sign :: (text ++ ':' :: written)) ⟨kind, path, some value⟩

/-- A text writes a query. -/
inductive Writes : List Char → Query → Prop
  /-- The empty text writes the empty query. -/
  | nil : Writes [] []
  /-- Blanks before a query mean nothing. -/
  | blank {c : Char} {rest : List Char} {query : Query} : Text.isBlank c → Writes rest query →
      Writes (c :: rest) query
  /-- A test and a query. -/
  | test {text rest : List Char} {test : TagTest} {query : Query} : WritesTest text test →
      Writes rest query → Writes (text ++ rest) (.test test :: query)
  /-- A group and a query. -/
  | group {contents rest : List Char} {exprs query : Query} : Writes contents exprs →
      Writes rest query → Writes ('[' :: (contents ++ ']' :: rest)) (.group exprs :: query)

end Query
end TagStore
