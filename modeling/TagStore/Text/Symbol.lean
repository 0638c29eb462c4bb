/-!
# Bytes as symbols

A byte text is read as UTF-8.  A byte that begins no well-formed character is kept as it is, so
that a reader can say where in the text it matters.
-/

namespace TagStore

/-- A unit of a byte text. -/
inductive Symbol where
  /-- A well-formed character. -/
  | char (char : Char)
  /-- A byte that belongs to no character. -/
  | stray (byte : UInt8)
  deriving DecidableEq, Inhabited

namespace Symbol

/-- The number of bytes a symbol takes. -/
def size : Symbol → Nat
  | char c => c.utf8Size
  | stray _ => 1

/-- The number of bytes that several symbols take. -/
def totalSize : List Symbol → Nat
  | [] => 0
  | symbol :: rest => symbol.size + totalSize rest

/-- The symbols of a byte text from a position on. -/
def ofBytesFrom (bytes : ByteArray) (position : Nat) : List Symbol :=
  if inside : position < bytes.size then
    match bytes.utf8DecodeChar? position with
    | some c => char c :: ofBytesFrom bytes (position + c.utf8Size)
    | none => stray bytes[position] :: ofBytesFrom bytes (position + 1)
  else []
  termination_by bytes.size - position
  decreasing_by
    · have := c.utf8Size_pos
      omega
    · omega

/-- The symbols of a byte text. -/
def ofBytes (bytes : ByteArray) : List Symbol := ofBytesFrom bytes 0

end Symbol
end TagStore
