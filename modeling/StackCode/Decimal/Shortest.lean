import StackCode.Binary

/-! The shortest decimal that reads back as a given floating-point value. Of the decimals with the
fewest digits between the two midpoints around the value, the nearest is taken. -/

namespace StackCode.Decimal

/-- A power of ten, one for negative exponents. -/
def tenTo (exponent : Int) : Nat := Nat.pow 10 exponent.toNat

/-- The number `digits * 10 ^ exponent`. -/
structure Scaled where
  digits : Nat
  exponent : Int
deriving DecidableEq

/-- A positive value as a fraction, with the midpoints to its two neighbours over the same
denominator. Decimals at a midpoint read back as the value exactly when its significand is even. -/
structure Interval where
  low : Nat
  value : Nat
  high : Nat
  denominator : Nat
  closed : Bool

/-- The interval around the finite positive value of a magnitude pattern. The gap below the least
significand of a binade is half the gap above it, except at the bottom of the range. -/
def Interval.around (magnitudePattern : Nat) : Interval :=
  let magnitude := BinaryFormat.double.magnitude magnitudePattern
  let format := BinaryFormat.double
  let halvedGap :=
    magnitude.significand = format.hiddenBit ∧ format.leastExponent < magnitude.exponent
  let quarters := magnitude.exponent - 2
  let scale (n : Nat) : Nat := n <<< quarters.toNat
  { low := scale (4 * magnitude.significand - if halvedGap then 1 else 2)
    value := scale (4 * magnitude.significand)
    high := scale (4 * magnitude.significand + 2)
    denominator := 1 <<< (-quarters).toNat
    closed := magnitude.significand % 2 = 0 }

/-- The decimal reads back as the value: it lies between the midpoints. -/
def Interval.contains (interval : Interval) (decimal : Scaled) : Bool :=
  let scaled (n : Nat) : Nat := n * tenTo (-decimal.exponent)
  let point := decimal.digits * tenTo decimal.exponent * interval.denominator
  if interval.closed then scaled interval.low ≤ point && point ≤ scaled interval.high
  else scaled interval.low < point && point < scaled interval.high

/-- How many digits stand before the point: the least `k` with the value below `10 ^ k`, looked for
upwards from `start`. -/
def Interval.integerDigits (interval : Interval) (start : Int) : Nat → Int
  | 0 => start
  | steps + 1 =>
    if interval.value * tenTo (-start) < tenTo start * interval.denominator then start
    else interval.integerDigits (start + 1) steps

/-- The better of the two neighbours of the value on the grid `10 ^ exponent`, if one reads back. Of two
that do, the nearer is taken, and the greater if both are equally near. -/
def Interval.onGrid? (interval : Interval) (exponent : Int) : Option Scaled :=
  let num := interval.value * tenTo (-exponent)
  let den := interval.denominator * tenTo exponent
  let below : Scaled := ⟨num / den, exponent⟩
  let above : Scaled := ⟨num / den + 1, exponent⟩
  match interval.contains below, interval.contains above with
  | true, true => some (if 2 * (num % den) < den then below else above)
  | true, false => some below
  | false, true => some above
  | false, false => none

/-- The first grid with a decimal that reads back, from coarse to fine. -/
def Interval.search (interval : Interval) (exponent : Int) : Nat → Option Scaled
  | 0 => none
  | steps + 1 =>
    match interval.onGrid? exponent with
    | some decimal => some decimal
    | none => interval.search (exponent - 1) steps

/-- Moves trailing zeros of the digits into the exponent. -/
def Scaled.strip (decimal : Scaled) : Nat → Scaled
  | 0 => decimal
  | steps + 1 =>
    if decimal.digits % 10 = 0 then Scaled.strip ⟨decimal.digits / 10, decimal.exponent + 1⟩ steps
    else decimal

/-- The exact value: halves become fives one place further down. -/
def Interval.exact (interval : Interval) : Scaled :=
  ⟨interval.value * Nat.pow 5 interval.denominator.log2, -(interval.denominator.log2 : Int)⟩

/-- The shortest decimal of the finite positive value of a magnitude pattern. Seventeen digits always
suffice to tell two values apart. -/
def shortest (magnitudePattern : Nat) : Scaled :=
  let interval := Interval.around magnitudePattern
  let bitLength : Int := (interval.value.log2 : Int) - interval.denominator.log2
  let places := interval.integerDigits (bitLength * 3 / 10 - 2) 8
  ((interval.search (places - 1) 17).getD interval.exact).strip 20

end StackCode.Decimal
