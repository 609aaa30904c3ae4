/-! # Decimal numbers

A decimal number as it is written, a whole number times a power of ten, and the double nearest to
it. Exponents far outside the range of doubles are decided by the number of digits alone, so that a
short text never asks for a huge power.
-/

namespace ChainPlan

/-- A whole number times a power of ten, with a sign that zero has too. -/
structure Decimal where
  negative : Bool
  significand : Nat
  exponent : Int
  deriving DecidableEq, Repr

namespace Decimal

/-- The value of a decimal digit. -/
def digit? (c : Char) : Option Nat := if c.isDigit then some (c.toNat - '0'.toNat) else none

/-- The number that some digits write in a base; characters that are no digits count as zero. -/
def ofDigits (base : Nat) (value : Char → Nat) (cs : List Char) : Nat :=
  cs.foldl (fun n c ↦ n * base + value c) 0

/-- The number that decimal digits write. -/
def natOfDigits (cs : List Char) : Nat := ofDigits 10 (fun c ↦ (digit? c).getD 0) cs

/-- The number of decimal digits of a number. -/
def digitCount (n : Nat) : Nat := (Nat.toDigits 10 n).length

/-- The double nearest to the absolute value; infinite if that is beyond the doubles. -/
def magnitude (d : Decimal) : Float :=
  let scale := (digitCount d.significand : Int) + d.exponent
  if d.significand = 0 ∨ scale < -330 then 0
  else if 320 < scale then 1 / 0
  else Float.ofScientific d.significand (d.exponent < 0) d.exponent.natAbs

/-- The double nearest to the number. -/
def toFloat (d : Decimal) : Float := if d.negative then -d.magnitude else d.magnitude

/-- The number that a text of digits writes. -/
def digits? (cs : List Char) : Option Nat :=
  if !cs.isEmpty && cs.all Char.isDigit then some (natOfDigits cs) else none

/-- The exponent that the text behind the digits writes: nothing, or a mark with an optional sign
and digits. -/
def exponent? : List Char → Option Int
  | [] => some 0
  | mark :: rest =>
    if mark = 'e' || mark = 'E' then
      match rest with
      | '+' :: ds => (digits? ds).map fun n ↦ (n : Int)
      | '-' :: ds => (digits? ds).map fun n ↦ -(n : Int)
      | ds => (digits? ds).map fun n ↦ (n : Int)
    else none

/-- The parts of a text that begins with digits: the digits in front of the point, those behind it
if there is a point, and the rest. -/
def split (cs : List Char) : List Char × Option (List Char) × List Char :=
  let whole := cs.takeWhile Char.isDigit
  match cs.dropWhile Char.isDigit with
  | '.' :: r => (whole, some (r.takeWhile Char.isDigit), r.dropWhile Char.isDigit)
  | r => (whole, none, r)

/-- The decimal of a sign, the digits around the point, and an exponent. -/
def ofParts (negative : Bool) (whole fraction : List Char) (exponent : Int) : Decimal :=
  ⟨negative, natOfDigits (whole ++ fraction), exponent - fraction.length⟩

end Decimal

end ChainPlan
