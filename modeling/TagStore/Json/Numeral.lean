/-!
# Numbers in JSON

A number is read only to tell whether it can be held by a binary floating-point number of 64 bits.
Its digits are kept as long as they fit 64 bits; digits of the integer part beyond that count as
zeros and digits of the fraction beyond that are ignored.
-/

namespace TagStore
namespace Json

/-- The digits of a number, and the power of ten that multiplies it. -/
structure Numeral where
  /-- The digits before the point. -/
  whole : List Nat
  /-- The digits after the point. -/
  fraction : List Nat
  /-- The written exponent. -/
  exponent : Int

namespace Numeral

/-- An integer and a power of ten. -/
structure Scaled where
  /-- The integer. -/
  significand : Nat
  /-- The exponent of ten. -/
  exponent : Int

/-- Append digits while the significand fits 64 bits; also answer the digits left over. -/
def extend (significand : Nat) : List Nat → Nat × List Nat
  | [] => (significand, [])
  | digit :: rest =>
    if significand * 10 + digit < Nat.pow 2 64 then extend (significand * 10 + digit) rest
    else (significand, digit :: rest)

/-- The value as far as its digits are kept. -/
def scaled (numeral : Numeral) : Scaled :=
  let whole := extend 0 numeral.whole
  let fraction := extend whole.1 numeral.fraction
  let kept := numeral.fraction.length - fraction.2.length
  ⟨fraction.1, numeral.exponent + (whole.2.length : Int) - (kept : Int)⟩

/-- The nearest integer with 53 significant bits, ties going to the even one. -/
def roundBits (n : Nat) : Nat :=
  let unit := Nat.pow 2 (n.log2 - 52)
  let quotient := n / unit
  let remainder := n % unit
  if 2 * remainder < unit || (2 * remainder = unit && quotient % 2 = 0) then quotient * unit
  else (quotient + 1) * unit

/-- Whether a number is too large to be held. -/
def overflows (numeral : Numeral) : Bool :=
  let value := numeral.scaled
  if value.exponent < 0 then false
  else if value.exponent ≤ 308 then
    let power := roundBits (Nat.pow 10 value.exponent.toNat)
    Nat.pow 2 1024 ≤ roundBits (roundBits value.significand * power)
  else value.significand ≠ 0

end Numeral
end Json
end TagStore
