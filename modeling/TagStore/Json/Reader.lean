import TagStore.Json.Basic
import TagStore.Json.Numeral
import TagStore.Text.Symbol

/-!
# Reading JSON

Readers take a value of a certain shape off the front of a byte text.  A text is read once, from
left to right, and the first flaw decides: a symbol that cannot stand where it is, the end of the
text, or a value of another shape than the one called for.

A record may be written as an object, whose unknown members are passed over, or as an array of its
fields in order.  What is passed over is read laxly: its texts may hold stray bytes and lone
surrogates, its numbers may have any size and its brackets any depth.
-/

namespace TagStore
namespace Json

/-- Why a text cannot be read. -/
inductive Flaw where
  /-- A symbol stands where it may not. -/
  | malformed
  /-- The text ends too early. -/
  | unfinished
  /-- A value is of the wrong shape. -/
  | unsuitable
  deriving DecidableEq, Repr

/-- A step that takes something off the front of a text. -/
abbrev Reader (α : Type) := StateT (List Symbol) (Except Flaw) α

/-! ## Characters of a text -/

/-- What a text is made of. -/
inductive Piece where
  /-- A character. -/
  | char (char : Char)
  /-- A stray byte or a lone surrogate. -/
  | broken

/-- The value of a hexadecimal digit. -/
def hexValue? : Symbol → Option Nat
  | .char c =>
    if c.isDigit then some (c.toNat - 48)
    else if 'a' ≤ c ∧ c ≤ 'f' then some (c.toNat - 87)
    else if 'A' ≤ c ∧ c ≤ 'F' then some (c.toNat - 55)
    else none
  | .stray _ => none

/-- Read the four digits of a code unit.  Fewer than four bytes are a text that ends too early. -/
def hexUnit : List Symbol → Except Flaw (Nat × List Symbol)
  | a :: b :: c :: d :: rest =>
    match hexValue? a, hexValue? b, hexValue? c, hexValue? d with
    | some a, some b, some c, some d => .ok (((a * 16 + b) * 16 + c) * 16 + d, rest)
    | _, _, _, _ => .error .malformed
  | short => .error (if Symbol.totalSize short < 4 then .unfinished else .malformed)

/-- Read the second half of a surrogate pair. -/
def lowSurrogate : List Symbol → Except Flaw (Nat × List Symbol)
  | [] => .error .unfinished
  | [.char '\\'] => .error .unfinished
  | .char '\\' :: .char 'u' :: rest =>
    match hexUnit rest with
    | .ok (unit, rest) =>
      if 0xDC00 ≤ unit ∧ unit ≤ 0xDFFF then .ok (unit, rest) else .error .malformed
    | .error flaw => .error flaw
  | _ => .error .malformed

/-- The letters that stand for characters after a backslash when a text is read. -/
def unescapeLetters : List (Char × Char) :=
  [('"', '"'), ('\\', '\\'), ('/', '/'), ('b', '\x08'), ('f', '\x0C'), ('n', '\n'), ('r', '\r'),
    ('t', '\t')]

/-- Read what follows a backslash. -/
def escaped (strict : Bool) : List Symbol → Except Flaw (Piece × List Symbol)
  | [] => .error .unfinished
  | .char 'u' :: rest =>
    match hexUnit rest with
    | .error flaw => .error flaw
    | .ok (unit, rest) =>
      if unit < 0xD800 ∨ 0xDFFF < unit then .ok (.char (Char.ofNat unit), rest)
      else if !strict then .ok (.broken, rest)
      else if 0xDC00 ≤ unit then .error .malformed
      else
        match lowSurrogate rest with
        | .error flaw => .error flaw
        | .ok (low, rest) =>
          .ok (.char (Char.ofNat (0x10000 + (unit - 0xD800) * 0x400 + (low - 0xDC00))), rest)
  | .char c :: rest =>
    match unescapeLetters.lookup c with
    | some d => .ok (.char d, rest)
    | none => .error .malformed
  | .stray _ :: _ => .error .malformed

/-- Read one piece of a text, or the quote that ends it. -/
def piece (strict : Bool) : List Symbol → Except Flaw (Option Piece × List Symbol)
  | [] => .error .unfinished
  | .char c :: rest =>
    if c = '"' then .ok (none, rest)
    else if c = '\\' then (escaped strict rest).map fun (piece, rest) => (some piece, rest)
    else if c.toNat < 0x20 then .error .malformed
    else .ok (some (.char c), rest)
  | .stray _ :: rest => .ok (some .broken, rest)

theorem length_hexUnit_lt {text rest : List Symbol} {unit : Nat}
    (read : hexUnit text = .ok (unit, rest)) : rest.length < text.length := by
  unfold hexUnit at read
  split at read
  · split at read
    · cases read
      simp only [List.length_cons]
      omega
    · cases read
  · cases read

theorem length_lowSurrogate_lt {text rest : List Symbol} {unit : Nat}
    (read : lowSurrogate text = .ok (unit, rest)) : rest.length < text.length := by
  unfold lowSurrogate at read
  split at read
  · cases read
  · cases read
  · split at read
    · rename_i digits
      split at read
      · cases read
        have := length_hexUnit_lt digits
        simp only [List.length_cons]
        omega
      · cases read
    · cases read
  · cases read

theorem length_escaped_lt {strict : Bool} {text rest : List Symbol} {read : Piece}
    (found : escaped strict text = .ok (read, rest)) : rest.length < text.length := by
  unfold escaped at found
  split at found
  · cases found
  · split at found
    · cases found
    · rename_i digits
      have first := length_hexUnit_lt digits
      simp only [List.length_cons]
      split at found
      · cases found
        omega
      · split at found
        · cases found
          omega
        · split at found
          · cases found
          · split at found
            · cases found
            · rename_i pair
              have second := length_lowSurrogate_lt pair
              cases found
              omega
  · split at found
    · cases found
      simp
    · cases found
  · cases found

theorem length_piece_lt {strict : Bool} {text rest : List Symbol} {read : Option Piece}
    (found : piece strict text = .ok (read, rest)) : rest.length < text.length := by
  unfold piece at found
  split at found
  · cases found
  · rename_i c tail
    simp only [List.length_cons]
    split at found
    · cases found
      omega
    · split at found
      · cases inner : escaped strict tail with
        | error flaw => simp [inner, Except.map] at found
        | ok result =>
          have := length_escaped_lt inner
          simp only [inner, Except.map, Except.ok.injEq, Prod.mk.injEq] at found
          obtain ⟨_, rfl⟩ := found
          omega
      · split at found
        · cases found
        · cases found
          omega
  · cases found
    simp

/-- Read the pieces of a text up to the quote that ends it. -/
def pieces (strict : Bool) (text : List Symbol) : Except Flaw (List Piece × List Symbol) :=
  match _found : piece strict text with
  | .error flaw => .error flaw
  | .ok (none, rest) => .ok ([], rest)
  | .ok (some piece, rest) =>
    (pieces strict rest).map fun (pieces, rest) => (piece :: pieces, rest)
  termination_by text.length
  decreasing_by exact length_piece_lt _found

/-- The characters of a text, unless a piece of it is broken. -/
def characters? : List Piece → Option (List Char)
  | [] => some []
  | .char c :: rest => (characters? rest).map (c :: ·)
  | .broken :: _ => none

namespace Reader

variable {α σ : Type}

/-! ## Symbols -/

/-- Whether a symbol may stand between any two others. -/
def isGap (symbol : Symbol) : Bool :=
  [Symbol.char ' ', .char '\n', .char '\t', .char '\r'].contains symbol

/-- Pass over gaps and look at the symbol after them. -/
def peek : Reader Symbol := fun text =>
  match text.dropWhile isGap with
  | [] => .error .unfinished
  | symbol :: rest => .ok (symbol, symbol :: rest)

/-- Look at the symbol that comes next, if there is one. -/
def here? : Reader (Option Symbol) := fun text => .ok (text.head?, text)

/-- Pass over one symbol. -/
def advance : Reader Unit := fun text => .ok ((), text.drop 1)

/-- Take a certain character after gaps. -/
def expect (c : Char) : Reader Unit := do
  if (← peek) = .char c then advance else throw .malformed

/-- Take the characters of a word, without gaps. -/
def letters : List Char → Reader Unit
  | [] => pure ()
  | c :: rest => do
    match ← here? with
    | none => throw .unfinished
    | some symbol => if symbol = .char c then do advance; letters rest else throw .malformed

/-! ## Texts and numbers -/

/-- Take the rest of a text, after its opening quote. -/
def contents (strict : Bool) : Reader String := fun text =>
  match pieces strict text with
  | .error flaw => .error flaw
  | .ok (pieces, rest) =>
    match characters? pieces with
    | some characters => .ok (String.ofList characters, rest)
    | none => if strict then .error .malformed else .ok ("", rest)

/-- Whether a symbol is a decimal digit. -/
def isDigit : Symbol → Bool
  | .char c => c.isDigit
  | .stray _ => false

/-- The value of a decimal digit. -/
def digitValue : Symbol → Nat
  | .char c => c.toNat - 48
  | .stray _ => 0

/-- Take all digits. -/
def digits : Reader (List Nat) := fun text =>
  .ok ((text.takeWhile isDigit).map digitValue, text.dropWhile isDigit)

/-- Take at least one digit.  Read strictly, a text that ends here ends too early. -/
def someDigits (strict : Bool) : Reader (List Nat) := do
  match ← digits with
  | [] => throw (if strict && (← here?).isNone then .unfinished else .malformed)
  | found => pure found

/-- Take one of some characters if it comes next. -/
def option (choices : List Char) : Reader (Option Char) := do
  match ← here? with
  | some (.char c) => if choices.contains c then do advance; pure (some c) else pure none
  | _ => pure none

/-- Take a number. -/
def numeral (strict : Bool) : Reader Numeral := do
  let _ ← option ['-']
  let whole ← someDigits strict
  if whole.head? = some 0 ∧ whole.length ≠ 1 then throw .malformed
  let fraction ← if (← option ['.']).isSome then someDigits strict else pure []
  let exponent ← if (← option ['e', 'E']).isSome then do
      let sign ← option ['+', '-']
      let magnitude : Nat := (← someDigits strict).foldl (fun value digit => value * 10 + digit) 0
      pure (if sign = some '-' then -(magnitude : Int) else (magnitude : Int))
    else pure 0
  let numeral : Numeral := ⟨whole, fraction, exponent⟩
  if strict && numeral.overflows then throw .malformed
  pure numeral

/-- Take a value that is neither an array nor an object. -/
def leaf (strict : Bool) : Reader Json := do
  match ← peek with
  | .char 'n' => do letters "null".toList; pure .null
  | .char 't' => do letters "true".toList; pure (.bool true)
  | .char 'f' => do letters "false".toList; pure (.bool false)
  | .char '"' => do advance; Json.text <$> contents strict
  | symbol =>
    if symbol = .char '-' || isDigit symbol then do
      let before ← get
      let _ ← numeral strict
      let spelled := before.take (before.length - (← get).length)
      pure (.number (String.ofList (spelled.filterMap fun
        | .char c => some c
        | .stray _ => none)))
    else throw .malformed

/-- Refuse the value that comes next because of its shape, if it is well-formed as far as it has to
be read to tell: a leaf to its end, an array or object to its opening bracket. -/
def refuse : Reader α := do
  match ← peek with
  | .char '[' | .char '\x7b' => throw .unsuitable
  | _ => do
    let _ ← leaf true
    throw .unsuitable

/-! ## Arrays and objects -/

/-- Take items, set apart by commas, up to a closing bracket.  Each item is at least one symbol, so
`fuel` need not exceed the number of symbols. -/
def itemsUntil (closing : Char) (item : σ → Reader σ) : (fuel : Nat) → (first : Bool) → σ → Reader σ
  | 0, _, _ => throw .unfinished
  | fuel + 1, first, state => do
    if (← peek) = .char closing then do
      advance
      pure state
    else do
      if !first then expect ','
      let state ← item state
      itemsUntil closing item fuel false state

/-- Take an opening bracket, items, and a closing bracket. -/
def enclosed (closing : Char) (item : σ → Reader σ) (state : σ) : Reader σ := do
  advance
  itemsUntil closing item ((← get).length + 1) true state

/-- Take the name of a member. -/
def name (strict : Bool) : Reader String := do
  if (← peek) = .char '"' then do advance; contents strict else throw .malformed

/-- Add a named item to those taken before. -/
def addMember (strict : Bool) (item : Reader α) (members : List (String × α)) :
    Reader (List (String × α)) := do
  let name ← name strict
  expect ':'
  let value ← item
  pure ((name, value) :: members)

/-- Take an array of items. -/
def items (item : Reader α) : Reader (List α) :=
  List.reverse <$> enclosed ']' (fun items => do pure ((← item) :: items)) []

/-- Take an object of items. -/
def members (strict : Bool) (item : Reader α) : Reader (List (String × α)) :=
  List.reverse <$> enclosed '\x7d' (addMember strict item) []

/-- Take any value with a limited number of brackets inside of each other. -/
def value (strict : Bool) : (depth : Nat) → Reader Json
  | 0 => do
    match ← peek with
    | .char '[' | .char '\x7b' => throw .malformed
    | _ => leaf strict
  | depth + 1 => do
    match ← peek with
    | .char '[' => Json.array <$> items (value strict depth)
    | .char '\x7b' => Json.object <$> members strict (value strict depth)
    | _ => leaf strict

/-- Pass over a value of any kind. -/
def skip : Reader Unit := do
  let _ ← value false (← get).length
  pure ()

/-- Take a text. -/
def text : Reader String := do
  if (← peek) = .char '"' then do advance; contents true else refuse

/-- Take an array of items of one shape. -/
def list (item : Reader α) : Reader (List α) := do
  if (← peek) = .char '[' then items item else refuse

/-- Take an object whose members are of one shape. -/
def dictionary (item : Reader α) : Reader (List (String × α)) := do
  if (← peek) = .char '\x7b' then members true item else refuse

/-! ## Records -/

/-- A field of a record that is put together from values of type `σ`. -/
structure Field (σ : Type) where
  /-- The name of the member. -/
  name : String
  /-- Whether the field has been given. -/
  seen : σ → Bool
  /-- Take its value. -/
  read : σ → Reader σ

/-- Take a member of a record. -/
def field (fields : List (Field σ)) (state : σ) : Reader σ := do
  let name ← name true
  match fields.find? (·.name = name) with
  | some field => do
    if field.seen state then throw .unsuitable
    expect ':'
    field.read state
  | none => do
    expect ':'
    skip
    pure state

/-- Take the fields of a record in order, as far as they are given. -/
def positional : List (Field σ) → (first : Bool) → σ → Reader σ
  | [], _, state => pure state
  | field :: rest, first, state => do
    if (← peek) = .char ']' then pure state
    else do
      if !first then expect ','
      let state ← field.read state
      positional rest false state

/-- Take a record as an object or an array; `finish` refuses one that lacks a field. -/
def record (fields : List (Field σ)) (start : σ) (finish : σ → Option α) : Reader α := do
  match ← peek with
  | .char '\x7b' => do
    match finish (← enclosed '\x7d' (field fields) start) with
    | some result => pure result
    | none => throw .unsuitable
  | .char '[' => do
    advance
    match finish (← positional fields true start) with
    | some result => do
      expect ']'
      pure result
    | none => throw .unsuitable
  | _ => refuse

/-- Read a whole byte text; only gaps may follow the value. -/
def document (reader : Reader α) (bytes : ByteArray) : Except Flaw α :=
  match reader (Symbol.ofBytes bytes) with
  | .error flaw => .error flaw
  | .ok (result, rest) => if rest.all isGap then .ok result else .error .malformed

end Reader
end Json
end TagStore
