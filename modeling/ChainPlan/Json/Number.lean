import ChainPlan.Json.Basic
import ChainPlan.Text.Decimal

/-! # Reading numbers of JSON

A number is read in one pass over its digits. Whole numbers of 64 bits are exact. Of any other
number as many digits are kept as fit 64 bits, and the double nearest to them is scaled by a power
of ten, so that the result may be next to the double that is nearest to the number.
-/

namespace ChainPlan

/-- What is kept of the digits of a number: a significand of at most 64 bits, and the power of ten
that it is times. -/
structure KeptDigits where
  significand : Nat
  exponent : Int
  deriving DecidableEq, Repr

namespace KeptDigits

/-- The bound of significands. -/
def bound : Nat := Nat.pow 2 64

/-- Whether one more digit fits. -/
def fits (k : KeptDigits) (d : Nat) : Bool := k.significand * 10 + d < bound

/-- The digits kept after some in front of the point; those from the first that does not fit only
raise the exponent. -/
def addWhole (k : KeptDigits) : List Nat → KeptDigits
  | [] => k
  | d :: ds =>
    if k.fits d then addWhole ⟨k.significand * 10 + d, k.exponent⟩ ds
    else ⟨k.significand, k.exponent + (ds.length + 1)⟩

/-- The digits kept after some behind the point; those from the first that does not fit are
dropped. -/
def addFraction (k : KeptDigits) : List Nat → KeptDigits
  | [] => k
  | d :: ds =>
    if k.fits d then addFraction ⟨k.significand * 10 + d, k.exponent - 1⟩ ds else k

/-- What is kept of the digits around a point. -/
def ofParts (whole fraction : List Char) : KeptDigits :=
  let values := List.filterMap Decimal.digit?
  (addWhole ⟨0, 0⟩ (values whole)).addFraction (values fraction)

/-- The largest power of ten by which a double is scaled at once. -/
def maxPower : Int := 308

/-- The double nearest to a power of ten. -/
def power (n : Int) : Float := Float.ofScientific 1 false n.toNat

/-- The double scaled by a power of ten. A positive power may lead out of the doubles; a power far
below them makes zero of every significand. -/
def scale? (x : Float) (exponent : Int) : Option Float :=
  if x == 0 then some 0
  else if maxPower < exponent then none
  else if 0 ≤ exponent then
    let y := x * power exponent
    if y.isFinite then some y else none
  else if -maxPower ≤ exponent then some (x / power (-exponent))
  else if -(2 * maxPower) ≤ exponent then
    some (x / power maxPower / power (-(exponent + maxPower)))
  else some 0

/-- The double that the digits and an exponent write, if they do not lead out of the doubles. -/
def toFloat? (k : KeptDigits) (exponent : Int) : Option Float :=
  scale? k.significand.toFloat (k.exponent + exponent)

end KeptDigits

namespace Json

/-- The whole number that digits and a sign write, if it fits 64 bits; a negative zero does not. -/
def wholeNumber? (negative : Bool) (digits : List Char) : Option Number :=
  let n := Decimal.natOfDigits digits
  if negative then
    if n = 0 || Nat.pow 2 63 < n then none else some (.int (-(n : Int)))
  else
    if n < Nat.pow 2 64 then some (.int n) else none

/-- The real number that digits around a point, an exponent and a sign write. -/
def realNumber (negative : Bool) (whole fraction : List Char) (exponent : Int) : Json :=
  match (KeptDigits.ofParts whole fraction).toFloat? exponent with
  | some x => .num (.real (if negative then -x else x))
  | none => .invalid

/-- The number that a text writes behind its sign: no zero in front of other digits, and digits on
both sides of a point. -/
def unsignedNumber? (negative : Bool) (cs : List Char) : Option Json :=
  let (whole, fraction, rest) := Decimal.split cs
  if whole.isEmpty || (1 < whole.length && whole.head? == some '0') then none
  else
    match fraction, rest with
    | none, [] =>
      match wholeNumber? negative whole with
      | some n => some (.num n)
      | none => some (realNumber negative whole [] 0)
    | none, _ => (Decimal.exponent? rest).map (realNumber negative whole [])
    | some [], _ => none
    | some ds, _ => (Decimal.exponent? rest).map (realNumber negative whole ds)

/-- The value that a bare word writes. -/
def word? (cs : List Char) : Option Json :=
  match cs with
  | '-' :: rest => unsignedNumber? true rest
  | _ =>
    match String.ofList cs with
    | "null" => some .null
    | "true" => some (.bool true)
    | "false" => some (.bool false)
    | _ => unsignedNumber? false cs

end Json

end ChainPlan
