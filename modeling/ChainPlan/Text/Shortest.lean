/-! # Shortest decimal text of a double

Of all decimals that round to a given double, the ones with the fewest digits are taken, and of
those the nearest; of two that are equally near, the one that ends in an even digit. The search
tries one digit, two digits, and so on; on the grid of decimals with so many digits only the two
neighbours of the double can be the answer, since a point of the grid inside the interval of reals
that round to the double has one of them between itself and the double.
-/

namespace ChainPlan

/-- Digits and an exponent: a whole number times a power of ten. -/
structure DecimalDigits where
  digits : Nat
  exponent : Int
  deriving DecidableEq, Repr

namespace DecimalDigits

/-- The significand and the binary exponent of the absolute value of a finite double. -/
def binaryParts (bits : UInt64) : Nat × Int :=
  let biased : Nat := (bits.toNat / Nat.pow 2 52) % Nat.pow 2 11
  let fraction : Nat := bits.toNat % Nat.pow 2 52
  if biased = 0 then (fraction, -1074) else (Nat.pow 2 52 + fraction, (biased : Int) - 1075)

/-- The interval of reals that round to a double, as multiples of one unit, with the unit as a
fraction: lower end, value, upper end, numerator and denominator of the unit. -/
structure Interval where
  lower : Nat
  value : Nat
  upper : Nat
  /-- Whether the ends round to the double too. -/
  closed : Bool
  num : Nat
  den : Nat

/-- The interval of a significand and a binary exponent; below a power of two it is shorter. -/
def interval (significand : Nat) (exponent : Int) : Interval :=
  let below := if significand = Nat.pow 2 52 && exponent != -1074 then 1 else 2
  let unit := exponent - 2
  { lower := 4 * significand - below
    value := 4 * significand
    upper := 4 * significand + 2
    closed := significand % 2 = 0
    num := Nat.pow 2 unit.toNat
    den := Nat.pow 2 (-unit).toNat }

/-- Whether a decimal lies in the interval. -/
def Interval.has (i : Interval) (d : DecimalDigits) : Bool :=
  let x := d.digits * Nat.pow 10 d.exponent.toNat * i.den
  let scale := i.num * Nat.pow 10 (-d.exponent).toNat
  if i.closed then i.lower * scale ≤ x && x ≤ i.upper * scale
  else i.lower * scale < x && x < i.upper * scale

/-- The power of ten of the first digit of a positive fraction. -/
def leadingPower (num den : Nat) : Int :=
  let guess := ((Nat.toDigits 10 num).length : Int) - (Nat.toDigits 10 den).length
  if den * Nat.pow 10 guess.toNat ≤ num * Nat.pow 10 (-guess).toNat then guess else guess - 1

/-- The decimal with a number of digits that is in the interval and nearest to its value. -/
def Interval.nearest? (i : Interval) (count : Nat) : Option DecimalDigits :=
  let num := i.value * i.num
  let exponent := leadingPower num i.den - (count : Int) + 1
  let top := num * Nat.pow 10 (-exponent).toNat
  let bottom := i.den * Nat.pow 10 exponent.toNat
  let low : DecimalDigits := ⟨top / bottom, exponent⟩
  let high : DecimalDigits := ⟨top / bottom + 1, exponent⟩
  match i.has low, i.has high with
  | true, true =>
    let double := 2 * (top % bottom)
    let takesLow := double < bottom || (double = bottom && low.digits % 2 = 0)
    some (if takesLow then low else high)
  | true, false => some low
  | false, true => some high
  | false, false => none

/-- The decimal without the zeros at its end. -/
def strip (fuel : Nat) (d : DecimalDigits) : DecimalDigits :=
  match fuel with
  | 0 => d
  | n + 1 => if d.digits % 10 = 0 then strip n ⟨d.digits / 10, d.exponent + 1⟩ else d

/-- The shortest decimal of the absolute value of a finite double other than zero. Seventeen digits
are always enough. -/
def ofBits (bits : UInt64) : DecimalDigits :=
  let (significand, exponent) := binaryParts bits
  let i := interval significand exponent
  match (List.range 17).findSome? fun n ↦ i.nearest? (n + 1) with
  | some d => strip 17 d
  | none => ⟨significand, exponent⟩

end DecimalDigits

end ChainPlan
