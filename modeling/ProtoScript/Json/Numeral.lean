import ProtoScript.Json.Basic

/-! # Numerals

A numeral without fraction and exponent that fits 64 bits is an integer. Any other is read as a
double: its leading digits make up a significand of at most 64 bits, the other digits and the
exponent a power of ten, and the double is the product of the doubles nearest to the two. A
numeral whose product is not finite is out of range.
-/

namespace ProtoScript.Json

structure Numeral where
  negative : Bool
  whole : List Char
  places : Option (List Char)
  exponent : Option Int

namespace Numeral

/-- Append digits to a significand as long as it fits 64 bits. The second component holds the
digits left over. -/
def extend (n : Nat) : List Char → Nat × List Char
  | [] => (n, [])
  | c :: rest =>
    let next := 10 * n + (c.toNat - '0'.toNat)
    if next < UInt64.size then extend next rest else (n, c :: rest)

/-- The significand and the power of ten that it is scaled by. A digit left over before the
decimal point counts as a zero, and one behind it not at all. -/
def scaled (numeral : Numeral) : Nat × Int :=
  let places := numeral.places.getD []
  let (n, uncounted) := extend 0 numeral.whole
  let (n, dropped) := extend n places
  (n, numeral.exponent.getD 0 + uncounted.length - (places.length - dropped.length : Nat))

/-- The double nearest to a natural number, of two equally near ones the even one. Its bits
beyond the first 53 are zero. -/
def nearestDouble (n : Nat) : Nat :=
  let unit := 1 <<< (n.log2 - 52)
  let below := n / unit
  let excess := 2 * (n % unit)
  if unit < excess ∨ unit = excess ∧ below % 2 = 1 then (below + 1) * unit else below * unit

/-- Decide whether the double of a numeral is finite. Halfway between the greatest double and
the next power of two, rounding leaves the range. -/
def isFinite (numeral : Numeral) : Bool :=
  let (n, e) := numeral.scaled
  n == 0 || e < 0 ||
    (e ≤ 308 &&
      nearestDouble n * nearestDouble (Nat.pow 10 e.toNat) < (1 <<< 1024) - (1 <<< 970))

def digits (numeral : Numeral) : Nat :=
  Nat.ofDigitChars 10 (numeral.whole ++ numeral.places.getD []) 0

def isWord (numeral : Numeral) : Bool :=
  numeral.places.isNone && numeral.exponent.isNone &&
    if numeral.negative then 0 < numeral.digits && numeral.digits ≤ 1 <<< 63
    else numeral.digits < UInt64.size

def toJson? (numeral : Numeral) : Option Json :=
  let digits : Int := if numeral.negative then -numeral.digits else numeral.digits
  if numeral.isWord then some (.integer digits)
  else if numeral.isFinite then
    some (.real digits (numeral.exponent.getD 0 - (numeral.places.getD []).length))
  else none

end Numeral

end ProtoScript.Json
