import TagStore.Query.Basic

/-!
# Reading queries

A query is read from the left.  Blanks are passed over; every other character has to open a token,
which is a test or a bracketed group.  A path takes all words it can get; a value is a word or a
quoted text, whose first character may be anything and whose others are not quotes.  A test whose
value cannot be read ends before the colon.

Where quotes and brackets close is asked of a `Lookahead`, so that the same reader can be run on a
text with precomputed tables and on bare characters.  Every view of the text that the reader comes
to is a part of the one before it, whatever the lookahead answers.
-/

namespace TagStore
namespace Query

/-- The reason why a text is no query; positions count characters of the text they are in. -/
inductive ParseError where
  /-- A character that is neither blank nor opens a token. -/
  | unexpected (position : Nat)
  /-- The error in the contents of the group whose bracket stands at a position. -/
  | inGroup (position : Nat) (cause : ParseError)
  deriving DecidableEq, Repr

namespace ParseError

/-- Where the error is in the text that was read. -/
def position : ParseError → Nat
  | unexpected position => position
  | inGroup position _ => position

/-- The error inside the group, if that is where it is. -/
def cause? : ParseError → Option ParseError
  | unexpected _ => none
  | inGroup _ cause => some cause

/-- What is said of an error without its cause. -/
def message : ParseError → String
  | unexpected position => "unexpected token at " ++ toString position
  | inGroup position _ => "error while parsing in group at " ++ toString position

/-- An error and the errors it comes from, outermost first. -/
def chain : ParseError → List ParseError
  | error@(unexpected _) => [error]
  | error@(inGroup _ cause) => error :: cause.chain

end ParseError

/-- What can be told of the text that follows, in characters of type `α`. -/
structure Lookahead (α : Type) where
  /-- The character itself. -/
  char : α → Char
  /-- The number of characters before the first quote of a text. -/
  quote : List α → Option Nat
  /-- The number of characters between an opening bracket, followed by a text, and its partner. -/
  inside : α → List α → Option Nat

/-- The unit of reading: a test, or the text between two brackets. -/
inductive Token (α : Type) where
  /-- A complete test. -/
  | test (test : TagTest)
  /-- The contents of a group, yet to be read. -/
  | group (contents : List α)

namespace Lookahead

variable {α : Type} (ahead : Lookahead α)

/-- The characters as a text. -/
def spell (text : List α) : String := String.ofList (text.map ahead.char)

/-- Whether a text begins with a word. -/
def startsWord : List α → Bool
  | [] => false
  | head :: _ => Text.isWordChar (ahead.char head)

/-- The number of word characters, and of dots before word characters, that begin a text. -/
def pathLength : List α → Nat
  | [] => 0
  | head :: rest =>
    if Text.isWordChar (ahead.char head) || (ahead.char head == '.' && ahead.startsWord rest) then
      pathLength rest + 1
    else 0

/-- The segments of the path that begins a text. -/
def path (text : List α) : List String :=
  Text.pieces '.' (ahead.spell (text.take (ahead.pathLength text)))

/-- What is left of a text after the path that begins it. -/
def afterPath (text : List α) : List α := text.drop (ahead.pathLength text)

/-- The longest word that begins a text. -/
def word (text : List α) : List α := text.takeWhile fun head => Text.isWordChar (ahead.char head)

/-- What is left of a text after the longest word that begins it. -/
def afterWord (text : List α) : List α :=
  text.dropWhile fun head => Text.isWordChar (ahead.char head)

/-- Read a quoted value that begins a text, opening quote included. -/
def readQuoted : List α → Option (String × List α)
  | opening :: first :: rest =>
    if ahead.char opening = '"' then
      (ahead.quote rest).bind fun size =>
        match rest.drop size with
        | [] => none
        | _ :: after => some (ahead.spell (first :: rest.take size), after)
    else none
  | _ => none

/-- Read a value that begins a text, colon included. -/
def readValue : List α → Option (String × List α)
  | [] => none
  | colon :: rest =>
    if ahead.char colon = ':' then
      if ahead.startsWord rest then some (ahead.spell (ahead.word rest), ahead.afterWord rest)
      else ahead.readQuoted rest
    else none

/-- Read the path and value of a test that begin a text. -/
def readTest (kind : Kind) (text : List α) : Option (TagTest × List α) :=
  if ahead.startsWord text then
    match ahead.readValue (ahead.afterPath text) with
    | some (value, after) => some (⟨kind, ahead.path text, some value⟩, after)
    | none => some (⟨kind, ahead.path text, none⟩, ahead.afterPath text)
  else none

/-- Read the token that begins with a character and goes on in the text after it. -/
def readToken (head : α) (rest : List α) : Option (Token α × List α) :=
  if ahead.char head = '[' then
    (ahead.inside head rest).bind fun size =>
      match rest.drop size with
      | [] => none
      | _ :: after => some (.group (rest.take size), after)
  else
    (Kind.ofSign? (ahead.char head)).bind fun kind =>
      (ahead.readTest kind rest).map fun (test, after) => (.test test, after)

/-! Reading never lengthens what is left. -/

theorem length_afterWord_le (text : List α) : (ahead.afterWord text).length ≤ text.length :=
  (List.dropWhile_sublist _).length_le

theorem length_after_drop {size : Nat} {text after : List α} {partner : α}
    (split : text.drop size = partner :: after) : after.length < text.length := by
  have := congrArg List.length split
  simp only [List.length_drop, List.length_cons] at this
  omega

theorem length_readQuoted_le {text after : List α} {value : String}
    (read : ahead.readQuoted text = some (value, after)) : after.length ≤ text.length := by
  match text with
  | [] => simp [readQuoted] at read
  | [_] => simp [readQuoted] at read
  | opening :: first :: rest =>
    rw [readQuoted] at read
    split at read
    · obtain ⟨size, _, found⟩ := Option.bind_eq_some_iff.mp read
      split at found
      · simp at found
      · rename_i closing tail split
        obtain ⟨_, rfl⟩ := Prod.mk.inj (Option.some.inj found)
        have := length_after_drop split
        simp only [List.length_cons]
        omega
    · simp at read

theorem length_readValue_le {text after : List α} {value : String}
    (read : ahead.readValue text = some (value, after)) : after.length ≤ text.length := by
  cases text with
  | nil => simp [readValue] at read
  | cons colon rest =>
    rw [readValue] at read
    split at read
    · split at read
      · obtain ⟨_, rfl⟩ := Prod.mk.inj (Option.some.inj read)
        exact Nat.le_succ_of_le (ahead.length_afterWord_le rest)
      · exact Nat.le_succ_of_le (ahead.length_readQuoted_le read)
    · simp at read

theorem length_readTest_le {kind : Kind} {text after : List α} {test : TagTest}
    (read : ahead.readTest kind text = some (test, after)) : after.length ≤ text.length := by
  rw [readTest] at read
  split at read
  · have path : (ahead.afterPath text).length ≤ text.length := List.length_drop ▸ Nat.sub_le _ _
    split at read
    · rename_i value tail found
      obtain ⟨_, rfl⟩ := Prod.mk.inj (Option.some.inj read)
      exact Nat.le_trans (ahead.length_readValue_le found) path
    · obtain ⟨_, rfl⟩ := Prod.mk.inj (Option.some.inj read)
      exact path
  · simp at read

theorem length_readToken_le {head : α} {rest after : List α} {token : Token α}
    (read : ahead.readToken head rest = some (token, after)) : after.length ≤ rest.length := by
  rw [readToken] at read
  split at read
  · obtain ⟨size, _, found⟩ := Option.bind_eq_some_iff.mp read
    split at found
    · simp at found
    · rename_i split
      obtain ⟨_, rfl⟩ := Prod.mk.inj (Option.some.inj found)
      exact Nat.le_of_lt (length_after_drop split)
  · obtain ⟨kind, _, found⟩ := Option.bind_eq_some_iff.mp read
    obtain ⟨⟨test, tail⟩, whole, same⟩ := Option.map_eq_some_iff.mp found
    obtain ⟨_, rfl⟩ := Prod.mk.inj same
    exact ahead.length_readTest_le whole

theorem length_contents_le {head : α} {rest contents after : List α}
    (read : ahead.readToken head rest = some (.group contents, after)) :
    contents.length ≤ rest.length := by
  rw [readToken] at read
  split at read
  · obtain ⟨size, _, found⟩ := Option.bind_eq_some_iff.mp read
    split at found
    · simp at found
    · obtain ⟨same, _⟩ := Prod.mk.inj (Option.some.inj found)
      cases same
      exact List.length_take_le' _ _
  · obtain ⟨kind, _, found⟩ := Option.bind_eq_some_iff.mp read
    obtain ⟨⟨test, tail⟩, _, same⟩ := Option.map_eq_some_iff.mp found
    simp at same

/-- Read what is left of a view that has `size` characters in all. -/
def readView (size : Nat) : List α → Except ParseError Query
  | [] => .ok []
  | head :: rest =>
    if Text.isBlank (ahead.char head) then readView size rest
    else
      match found : ahead.readToken head rest with
      | none => .error (.unexpected (size - (rest.length + 1)))
      | some (.test test, after) => (readView size after).map (.test test :: ·)
      | some (.group contents, after) =>
        match readView contents.length contents with
        | .error cause => .error (.inGroup (size - (rest.length + 1)) cause)
        | .ok exprs => (readView size after).map (.group exprs :: ·)
  termination_by text => text.length
  decreasing_by
    all_goals simp only [List.length_cons]
    · omega
    · have := ahead.length_readToken_le found
      omega
    · have := ahead.length_contents_le found
      omega
    · have := ahead.length_readToken_le found
      omega

/-- Read a whole text as a query. -/
def read (text : List α) : Except ParseError Query := ahead.readView text.length text

end Lookahead

end Query
end TagStore
