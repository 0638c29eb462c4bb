import TagStore.Text.Chars

/-!
# SHA-256

The digest of a byte text by the Secure Hash Algorithm with 256 bits, written in hexadecimal.  The
text is padded to whole blocks of 64 bytes, and each block is mixed into eight words of 32 bits.
-/

namespace TagStore
namespace Digest

/-- The word that each of the 64 rounds adds. -/
def roundWords : List UInt32 :=
  [0x428a2f98, 0x71374491, 0xb5c0fbcf, 0xe9b5dba5, 0x3956c25b, 0x59f111f1, 0x923f82a4, 0xab1c5ed5,
    0xd807aa98, 0x12835b01, 0x243185be, 0x550c7dc3, 0x72be5d74, 0x80deb1fe, 0x9bdc06a7, 0xc19bf174,
    0xe49b69c1, 0xefbe4786, 0x0fc19dc6, 0x240ca1cc, 0x2de92c6f, 0x4a7484aa, 0x5cb0a9dc, 0x76f988da,
    0x983e5152, 0xa831c66d, 0xb00327c8, 0xbf597fc7, 0xc6e00bf3, 0xd5a79147, 0x06ca6351, 0x14292967,
    0x27b70a85, 0x2e1b2138, 0x4d2c6dfc, 0x53380d13, 0x650a7354, 0x766a0abb, 0x81c2c92e, 0x92722c85,
    0xa2bfe8a1, 0xa81a664b, 0xc24b8b70, 0xc76c51a3, 0xd192e819, 0xd6990624, 0xf40e3585, 0x106aa070,
    0x19a4c116, 0x1e376c08, 0x2748774c, 0x34b0bcb5, 0x391c0cb3, 0x4ed8aa4a, 0x5b9cca4f, 0x682e6ff3,
    0x748f82ee, 0x78a5636f, 0x84c87814, 0x8cc70208, 0x90befffa, 0xa4506ceb, 0xbef9a3f7, 0xc67178f2]

/-- Turn the bits of a word to the right. -/
def rotate (word amount : UInt32) : UInt32 := word >>> amount ||| word <<< (32 - amount)

/-- The eight words that a text is mixed into. -/
structure State where
  /-- First word. -/
  a : UInt32
  /-- Second word. -/
  b : UInt32
  /-- Third word. -/
  c : UInt32
  /-- Fourth word. -/
  d : UInt32
  /-- Fifth word. -/
  e : UInt32
  /-- Sixth word. -/
  f : UInt32
  /-- Seventh word. -/
  g : UInt32
  /-- Eighth word. -/
  h : UInt32

namespace State

/-- The state in which every text starts. -/
def start : State :=
  ⟨0x6a09e667, 0xbb67ae85, 0x3c6ef372, 0xa54ff53a, 0x510e527f, 0x9b05688c, 0x1f83d9ab, 0x5be0cd19⟩

/-- The words in order. -/
def words (s : State) : List UInt32 := [s.a, s.b, s.c, s.d, s.e, s.f, s.g, s.h]

/-- The sums of two states, word by word. -/
def add (s t : State) : State :=
  ⟨s.a + t.a, s.b + t.b, s.c + t.c, s.d + t.d, s.e + t.e, s.f + t.f, s.g + t.g, s.h + t.h⟩

/-- One round, with the sum of its own word and the word of the schedule. -/
def round (s : State) (word : UInt32) : State :=
  let choice := (s.e &&& s.f) ^^^ (~~~s.e &&& s.g)
  let majority := (s.a &&& s.b) ^^^ (s.a &&& s.c) ^^^ (s.b &&& s.c)
  let first := s.h + (rotate s.e 6 ^^^ rotate s.e 11 ^^^ rotate s.e 25) + choice + word
  let second := (rotate s.a 2 ^^^ rotate s.a 13 ^^^ rotate s.a 22) + majority
  ⟨first + second, s.a, s.b, s.c, s.d + first, s.e, s.f, s.g⟩

end State

/-- The next word of a schedule. -/
def nextWord (words : Array UInt32) : UInt32 :=
  let near := words.getD (words.size - 2) 0
  let far := words.getD (words.size - 15) 0
  (rotate near 17 ^^^ rotate near 19 ^^^ near >>> 10) + words.getD (words.size - 7) 0 +
    (rotate far 7 ^^^ rotate far 18 ^^^ far >>> 3) + words.getD (words.size - 16) 0

/-- The word of four bytes from a position on, the first byte counting most. -/
def wordAt (bytes : Array UInt8) (position : Nat) : UInt32 :=
  (List.range 4).foldl
    (fun word offset => word <<< 8 ||| (bytes.getD (position + offset) 0).toUInt32) 0

/-- The 64 words that a block from a position on is stretched to. -/
def schedule (bytes : Array UInt8) (position : Nat) : Array UInt32 :=
  let block := (List.range 16).map fun index => wordAt bytes (position + 4 * index)
  (List.range 48).foldl (fun words _ => words.push (nextWord words)) block.toArray

/-- Mix the block from a position on into a state. -/
def mix (bytes : Array UInt8) (state : State) (position : Nat) : State :=
  let rounds := roundWords.zip (schedule bytes position).toList
  state.add (rounds.foldl (fun state round => state.round (round.1 + round.2)) state)

/-- The bytes of a number, the first byte counting most. -/
def bigEndian (width number : Nat) : List UInt8 :=
  (List.range width).reverse.map fun index => UInt8.ofNat (number >>> (8 * index))

/-- The text with a mark at its end and its length in bits, filled up to whole blocks. -/
def pad (bytes : ByteArray) : Array UInt8 :=
  let zeros := List.replicate ((119 - bytes.size % 64) % 64) 0
  bytes.data ++ (0x80 :: (zeros ++ bigEndian 8 (8 * bytes.size))).toArray

/-- The two hexadecimal digits of a byte. -/
def hexByte (byte : UInt8) : List Char :=
  [Text.hexDigit (byte.toNat / 16), Text.hexDigit (byte.toNat % 16)]

end Digest

/-- The digest of a byte text, in lower-case hexadecimal. -/
def digest (bytes : ByteArray) : String :=
  let padded := Digest.pad bytes
  let blocks := (List.range (padded.size / 64)).map (64 * ·)
  let final := blocks.foldl (Digest.mix padded) Digest.State.start
  String.ofList ((final.words.flatMap fun word => Digest.bigEndian 4 word.toNat).flatMap
    Digest.hexByte)

end TagStore
