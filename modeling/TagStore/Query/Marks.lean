import TagStore.Query.Reader

/-!
# Quotes and brackets of a whole text

Each character of a text is marked with its position, with the position of the first quote from
there on, and, if it is a bracket that opens a group, with the position of the bracket that closes
it.  The marks are made in a fixed number of passes over the text, so that no quote and no bracket
is searched for again however deep the groups are nested.

A quote after a colon opens a quoted value.  The brackets inside such a value, up to the first quote
that stands at least two places further on, do not count.
-/

namespace TagStore
namespace Query

/-- A character and what is known of the text after it; positions are those of the whole text. -/
structure Mark where
  /-- The character. -/
  char : Char
  /-- Where it stands. -/
  position : Nat
  /-- Where the first quote at or after it stands. -/
  quote : Option Nat
  /-- Where the bracket stands that closes it. -/
  closing : Option Nat
  deriving DecidableEq, Repr

namespace Mark

/-- For each character of a text, where the first quote at or after it stands. -/
def quotes (start : Nat) : List Char → List (Option Nat)
  | [] => []
  | c :: rest =>
    let later := quotes (start + 1) rest
    (if c = '"' then some start else later.head?.join) :: later

/-- For each character, whether it is outside of the quoted values.  A value that opens here hides
the characters up to its closing quote; `hidden` of them are still to come. -/
def shown (start : Nat) (afterColon : Bool) : (hidden : Nat) → List (Char × Option Nat) → List Bool
  | _, [] => []
  | hidden + 1, (c, _) :: rest => false :: shown (start + 1) (c == ':') hidden rest
  | 0, (c, _) :: rest =>
    let closing := if c = '"' && afterColon then rest[1]?.bind (·.2) else none
    true :: shown (start + 1) (c == ':') (closing.elim 0 (· - start)) rest

/-- For each character, where the bracket stands that closes it, and the positions of the brackets
that close nothing in the text. -/
def closings (start : Nat) : List (Char × Bool) → List (Option Nat) × List Nat
  | [] => ([], [])
  | (c, isShown) :: rest =>
    let later := closings (start + 1) rest
    if isShown && c == ']' then (none :: later.1, start :: later.2)
    else if isShown && c == '[' then (later.2.head? :: later.1, later.2.tail)
    else (none :: later.1, later.2)

/-- Put together what is known of each character. -/
def assemble (start : Nat) : List Char → List (Option Nat) → List (Option Nat) → List Mark
  | c :: text, quote :: quotes, closing :: closings =>
    ⟨c, start, quote, closing⟩ :: assemble (start + 1) text quotes closings
  | _, _, _ => []

/-- The marks of a text. -/
def ofText (text : List Char) : List Mark :=
  let quotes := quotes 0 text
  let shown := shown 0 false 0 (text.zip quotes)
  assemble 0 text quotes (closings 0 (text.zip shown)).1

/-- Quotes and brackets as the marks have them. -/
def lookahead : Lookahead Mark where
  char := Mark.char
  quote
    | [] => none
    | mark :: _ => mark.quote.map (· - mark.position)
  inside mark _ := mark.closing.map (· - (mark.position + 1))

end Mark

/-- Read a query. -/
def parse (text : String) : Except ParseError Query := Mark.lookahead.read (Mark.ofText text.toList)

end Query
end TagStore
