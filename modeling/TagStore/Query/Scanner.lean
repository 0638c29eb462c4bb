import TagStore.Query.Marks

/-!
# Reading a query by positions

Here the brackets of a text are paired by a stack, and the reader moves a cursor over a view.  What
it takes of the view are ranges, and what the marks say of the whole text is counted from where the
view begins.  It gives up with a fault at a range that is not in the view, at a count that would be
negative, and at a token that does not take it further.
-/

namespace TagStore
namespace Query

/-- A step that cannot be taken. -/
inductive Fault where
  /-- A range is reversed, or it or a position goes beyond the end. -/
  | range
  /-- A position lies before the one that it is counted from. -/
  | position
  /-- A token does not take the cursor further, or a group is no smaller than its view. -/
  | standstill
  deriving DecidableEq, Repr

/-! ## Brackets -/

/-- The brackets that are open, the last one first, and for each position where what is opened there
has been closed. -/
structure Pairing where
  /-- The positions of the brackets that are open. -/
  opened : List Nat
  /-- Where the bracket of each position is closed. -/
  closings : List (Option Nat)

/-- Take the character of a position: a closing bracket goes with the last one that is open. -/
def Pairing.take (pairing : Pairing) (c : Char) (position : Nat) : Except Fault Pairing :=
  if c = '[' then .ok ⟨position :: pairing.opened, pairing.closings⟩
  else if c = ']' then
    match pairing.opened with
    | [] => .ok pairing
    | start :: opened =>
      if start < pairing.closings.length then
        .ok ⟨opened, pairing.closings.set start (some position)⟩
      else .error .range
  else .ok pairing

/-- The position to go on from: behind the character of a position, or behind the quoted value that
it opens. -/
def positionAfter (text : List Char) (quotes : List (Option Nat)) (position : Nat) : Nat :=
  if text[position]? = some '"' ∧ 0 < position ∧ text[position - 1]? = some ':' then
    quotes[position + 2]?.join.getD position + 1
  else position + 1

/-- Pair the brackets of a text from a position on. -/
def pairFrom (text : List Char) (quotes : List (Option Nat)) (position : Nat) (pairing : Pairing) :
    Except Fault (List (Option Nat)) :=
  if inside : position < text.length then do
    let pairing ← pairing.take text[position] position
    if _ : position < positionAfter text quotes position then
      pairFrom text quotes (positionAfter text quotes position) pairing
    else throw .standstill
  else .ok pairing.closings
  termination_by text.length - position

/-- For each position of a text, where the bracket is closed that is opened there. -/
def closingBrackets (text : List Char) (quotes : List (Option Nat)) :
    Except Fault (List (Option Nat)) :=
  pairFrom text quotes 0 ⟨[], List.replicate text.length none⟩

/-! ## Views -/

/-- The result of reading unless a step cannot be taken. -/
abbrev Reading := ExceptT ParseError (Except Fault)

/-- A part of a text, and the position where it begins. -/
structure View where
  /-- The characters, marked in the whole text. -/
  marks : List Mark
  /-- The number of characters before the view. -/
  offset : Nat

namespace View

/-- The unit of reading: a test, or the range between two brackets. -/
inductive Token where
  /-- A complete test. -/
  | test (test : TagTest)
  /-- The contents of a group, from one place to before another. -/
  | group (first last : Nat)

/-- The marks from one place to before another. -/
def slice (view : View) (first last : Nat) : Except Fault (List Mark) :=
  if first ≤ last ∧ last ≤ view.marks.length then .ok ((view.marks.take last).drop first)
  else .error .range

/-- The characters of a range as a text. -/
def spell (view : View) (first last : Nat) : Except Fault String :=
  (view.slice first last).map Mark.lookahead.spell

/-- The place of a position of the whole text. -/
def placeOf (view : View) (position : Nat) : Except Fault Nat :=
  if view.offset ≤ position then .ok (position - view.offset) else .error .position

/-- The character at a place, if it is one of the view. -/
def char? (view : View) (place : Nat) : Option Char := view.marks[place]?.map Mark.char

/-- The end of the longest word from a place on, unless it is empty. -/
def wordEnd? (view : View) (start : Nat) : Option Nat :=
  match Mark.lookahead.word (view.marks.drop start) with
  | [] => none
  | word => some (start + word.length)

theorem lt_of_char? {view : View} {place : Nat} {c : Char} (here : view.char? place = some c) :
    place < view.marks.length := by
  obtain ⟨mark, here, -⟩ := Option.map_eq_some_iff.mp here
  exact (List.getElem?_eq_some_iff.mp here).1

theorem lt_of_wordEnd? {view : View} {start last : Nat} (ends : view.wordEnd? start = some last) :
    start < last := by
  rw [wordEnd?] at ends
  split at ends
  · cases ends
  · rename_i nonempty
    cases ends
    exact Nat.lt_add_of_pos_right (List.length_pos_iff.mpr nonempty)

/-- The segments of a path that follow a place where one has ended, and where the last one ends. -/
def segmentsFrom (view : View) (last : Nat) : Except Fault (List String × Nat) :=
  if _ : view.char? last = some '.' then
    match _ : view.wordEnd? (last + 1) with
    | none => .ok ([], last)
    | some next => do
      let segment ← view.spell (last + 1) next
      let (segments, last) ← view.segmentsFrom next
      return (segment :: segments, last)
  else .ok ([], last)
  termination_by view.marks.length - last
  decreasing_by
    rename_i dot ends
    have := lt_of_char? dot
    have := lt_of_wordEnd? ends
    omega

/-- Read the path that begins at a place. -/
def path? (view : View) (start : Nat) : Except Fault (Option (List String × Nat)) :=
  match view.wordEnd? start with
  | none => .ok none
  | some last => do
    let segment ← view.spell start last
    let (segments, last) ← view.segmentsFrom last
    return some (segment :: segments, last)

/-- The quote of the view that closes a value opened at a place. -/
def closingQuote? (view : View) (opening : Nat) : Except Fault (Option Nat) :=
  match view.marks[opening + 2]?.bind Mark.quote with
  | none => .ok none
  | some quote => do
    let close ← view.placeOf quote
    return if close < view.marks.length then some close else none

/-- The bracket that closes a group opened at a place; no check is made that it is in the view. -/
def closingBracket? (view : View) (opening : Nat) : Except Fault (Option Nat) :=
  match view.marks[opening]?.bind Mark.closing with
  | none => .ok none
  | some closing => (view.placeOf closing).map some

/-- Read the quoted value that begins at a place, opening quote included. -/
def quoted? (view : View) (opening : Nat) : Except Fault (Option (String × Nat)) :=
  if view.char? opening = some '"' then do
    match ← view.closingQuote? opening with
    | none => return none
    | some close =>
      let value ← view.spell (opening + 1) close
      return some (value, close + 1)
  else .ok none

/-- Read the value that begins at a place, colon included. -/
def value? (view : View) (colon : Nat) : Except Fault (Option (String × Nat)) :=
  if view.char? colon = some ':' then
    match view.wordEnd? (colon + 1) with
    | none => view.quoted? (colon + 1)
    | some last => do
      let value ← view.spell (colon + 1) last
      return some (value, last)
  else .ok none

/-- Read the path and value of a test that begin at a place. -/
def test? (view : View) (kind : Kind) (start : Nat) : Except Fault (Option (TagTest × Nat)) := do
  match ← view.path? start with
  | none => return none
  | some (path, last) =>
    match ← view.value? last with
    | none => return some (⟨kind, path, none⟩, last)
    | some (value, last) => return some (⟨kind, path, some value⟩, last)

/-- Read the group that begins at a place, opening bracket included. -/
def group? (view : View) (start : Nat) : Except Fault (Option (Token × Nat)) := do
  match ← view.closingBracket? start with
  | none => return none
  | some close => return some (.group (start + 1) close, close + 1)

/-- Read the token that begins at a place. -/
def token? (view : View) (start : Nat) : Except Fault (Option (Token × Nat)) :=
  match view.char? start with
  | none => .ok none
  | some c =>
    if c = '[' then view.group? start
    else
      match Kind.ofSign? c with
      | none => .ok none
      | some kind => do
        match ← view.test? kind (start + 1) with
        | none => return none
        | some (test, last) => return some (.test test, last)

/-- The first token that begins at a place or behind it, with its start and its end. -/
def nextToken? (view : View) (cursor : Nat) : Except Fault (Option (Nat × Token × Nat)) :=
  if cursor < view.marks.length then do
    match ← view.token? cursor with
    | none => view.nextToken? (cursor + 1)
    | some (token, last) => return some (cursor, token, last)
  else .ok none
  termination_by view.marks.length - cursor

/-- Pass over a range that has to be blank. -/
def passBlanks (view : View) (first last : Nat) : Reading Unit := do
  let gap ← view.slice first last
  match gap.findIdx? fun mark => !Text.isBlank mark.char with
  | some place => throw (.unexpected (first + place))
  | none => return

/-- Read what is left of a view at a place. -/
def readFrom (view : View) (cursor : Nat) : Reading Query := do
  match ← view.nextToken? cursor with
  | none =>
    view.passBlanks cursor view.marks.length
    return []
  | some (start, token, last) =>
    view.passBlanks cursor start
    if _ : cursor < last ∧ last ≤ view.marks.length then
      match token with
      | .test test => return .test test :: (← view.readFrom last)
      | .group first close =>
        let contents ← view.slice first close
        if _ : contents.length < view.marks.length then
          let inner : View := ⟨contents, view.offset + first⟩
          let exprs ← ExceptT.adapt (ParseError.inGroup start) (inner.readFrom 0)
          return .group exprs :: (← view.readFrom last)
        else throwThe Fault .standstill
    else throwThe Fault .standstill
  termination_by (view.marks.length, view.marks.length - cursor)

end View

/-- Read a query by positions. -/
def parseByPosition (text : String) : Except Fault (Except ParseError Query) := do
  let quotes := Mark.quotes 0 text.toList
  let closings ← closingBrackets text.toList quotes
  (View.readFrom ⟨Mark.assemble 0 text.toList quotes closings, 0⟩ 0).run

end Query
end TagStore
