/-!
# Similar texts

Two texts are similar if they share many characters at nearly the same positions.  A character of
one text is shared if the other has an equal one, not yet taken, less than half the longer length
away; it is out of order if its partner stands before that of the character shared last.  The
agreement of two texts is the mean of the shared portion of each text and of the portion of shared
characters in order.  Their similarity is the agreement and, for each common character at the start,
a tenth of what the agreement lacks.
-/

namespace TagStore
namespace Text

/-- The characters of a text that have a partner in another. -/
structure Pairing where
  /-- The positions of the partners. -/
  taken : List Nat := []
  /-- The position of the last partner. -/
  last : Nat := 0
  /-- The number of partners that stand before the one found last. -/
  disordered : Nat := 0

namespace Pairing

/-- Look for the partner of a character at a position, at most `reach` away. -/
def add (reach : Nat) (other : List Char) (pairing : Pairing) (entry : Char × Nat) : Pairing :=
  let near := fun place => entry.2 ≤ place + reach && place ≤ entry.2 + reach
  let partner := other.zipIdx.find? fun candidate =>
    candidate.1 = entry.1 && near candidate.2 && !pairing.taken.contains candidate.2
  match partner with
  | none => pairing
  | some (_, place) =>
    { taken := place :: pairing.taken
      last := place
      disordered := pairing.disordered + if place < pairing.last then 1 else 0 }

/-- The partners of the characters of a text, from left to right. -/
def of (text other : List Char) : Pairing :=
  text.zipIdx.foldl (add (max text.length other.length / 2 - 1) other) {}

end Pairing

/-- The number of characters that two texts have in common at their start. -/
def commonStart (text other : List Char) : Nat :=
  ((text.zip other).takeWhile fun pair => pair.1 = pair.2).length

/-- Whether the similarity of two texts is more than four fifths.  With lengths `m` and `n`, `k`
shared characters and `d` of them out of order, the agreement is
`(k / m + k / n + (k - d) / k) / 3`. -/
def isSimilar (text other : List Char) : Bool :=
  let pairing := Pairing.of text other
  let shared := pairing.taken.length
  let whole := 3 * shared * text.length * other.length
  let agreement := shared * shared * other.length + shared * shared * text.length +
    (shared - pairing.disordered) * text.length * other.length
  8 * whole < 10 * agreement + commonStart text other * (whole - agreement)

end Text
end TagStore
