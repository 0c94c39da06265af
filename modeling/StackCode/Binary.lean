/-! Binary floating-point patterns. A pattern is split into a sign and a magnitude, and the magnitude
of a finite pattern is `significand * 2 ^ exponent`. Rounding goes to the nearest pattern, ties to the
even one, and is computed exactly on naturals. -/

namespace StackCode

/-- Quotient of two naturals rounded to the nearest natural, ties to the even one. -/
def roundQuotient (num den : Nat) : Nat :=
  let whole := num / den
  let twice := 2 * (num % den)
  if twice < den then whole
  else if den < twice then whole + 1
  else whole + whole % 2

/-- An interchange format: bits of precision (the hidden one counted) and the exponent of its least
subnormal. A magnitude pattern counts the finite magnitudes upwards from zero. -/
structure BinaryFormat where
  precision : Nat
  leastExponent : Int
  /-- The magnitude pattern of infinity. -/
  infinity : Nat

namespace BinaryFormat

def single : BinaryFormat where
  precision := 24
  leastExponent := -149
  infinity := 0x7F800000

def double : BinaryFormat where
  precision := 53
  leastExponent := -1074
  infinity := 0x7FF0000000000000

/-- The leading bit of a significand, which patterns do not store. -/
def hiddenBit (format : BinaryFormat) : Nat := 1 <<< (format.precision - 1)

/-- A finite magnitude, `significand * 2 ^ exponent`. -/
structure Magnitude where
  significand : Nat
  exponent : Int

/-- The numerator of a magnitude over `Magnitude.denominator`. -/
def Magnitude.numerator (magnitude : Magnitude) : Nat := magnitude.significand <<< magnitude.exponent.toNat

/-- A power of two that makes a magnitude a fraction of naturals. -/
def Magnitude.denominator (magnitude : Magnitude) : Nat := 1 <<< (-magnitude.exponent).toNat

/-- The magnitude that a finite pattern denotes. -/
def magnitude (format : BinaryFormat) (pattern : Nat) : Magnitude :=
  let scale := pattern / format.hiddenBit
  let fraction := pattern % format.hiddenBit
  if scale = 0 then ⟨fraction, format.leastExponent⟩
  else ⟨format.hiddenBit + fraction, format.leastExponent + (scale - 1 : Nat)⟩

/-- The exponent of the leading bit of `num / den`, both positive. -/
def leadingExponent (num den : Nat) : Int :=
  let guess : Int := (num.log2 : Int) - (den.log2 : Int)
  if num <<< (-guess).toNat < den <<< guess.toNat then guess - 1 else guess

/-- The magnitude pattern nearest to `num / den`; what exceeds the greatest finite magnitude by half a
step or more becomes infinity. -/
def nearest (format : BinaryFormat) (num den : Nat) : Nat :=
  if num = 0 then 0
  else
    let exponent := max (leadingExponent num den - (format.precision - 1 : Nat)) format.leastExponent
    let significand := roundQuotient (num <<< (-exponent).toNat) (den <<< exponent.toNat)
    let steps := (exponent - format.leastExponent).toNat * format.hiddenBit
    min (steps + significand) format.infinity

end BinaryFormat

/-- A 64-bit floating-point value, known by its pattern: equality tells the two zeros apart, and two
NaNs are equal exactly when their patterns are. -/
structure Binary64 where
  pattern : UInt64
deriving DecidableEq

namespace Binary64

def signMask : UInt64 := 0x8000000000000000

def zero : Binary64 := ⟨0⟩

/-- The quiet NaN with a clear sign and no payload. -/
def nan : Binary64 := ⟨0x7FF8000000000000⟩

def isNegative (x : Binary64) : Bool := x.pattern &&& signMask != 0

/-- The pattern without its sign. -/
def magnitudePattern (x : Binary64) : Nat := (x.pattern &&& ~~~signMask).toNat

def ofSigned (negative : Bool) (magnitudePattern : Nat) : Binary64 :=
  ⟨(if negative then signMask else 0) ||| UInt64.ofNat magnitudePattern⟩

def isNaN (x : Binary64) : Bool := BinaryFormat.double.infinity < x.magnitudePattern

def isInfinite (x : Binary64) : Bool := x.magnitudePattern == BinaryFormat.double.infinity

/-- Both zeros are zero. -/
def isZero (x : Binary64) : Bool := x.magnitudePattern == 0

/-- The value nearest to the quotient, with the given sign. -/
def ofQuotient (negative : Bool) (num den : Nat) : Binary64 :=
  ofSigned negative (BinaryFormat.double.nearest num den)

def ofInt (n : Int) : Binary64 := ofQuotient (n < 0) n.natAbs 1

/-- The integer part, towards zero, of a finite value. -/
def truncate (x : Binary64) : Int :=
  let magnitude := BinaryFormat.double.magnitude x.magnitudePattern
  let whole := magnitude.numerator / magnitude.denominator
  if x.isNegative then -(whole : Int) else whole

/-- The integer part brought between two bounds. Infinities go to a bound, and NaN to zero. -/
def clampTruncate (x : Binary64) (low high : Int) : Int :=
  if x.isNaN then 0
  else if x.isInfinite then (if x.isNegative then low else high)
  else max low (min high x.truncate)

def toInt64 (x : Binary64) : Int64 := Int64.ofInt (x.clampTruncate Int64.minValue.toInt Int64.maxValue.toInt)

def toUInt64 (x : Binary64) : UInt64 := UInt64.ofNat (x.clampTruncate 0 (UInt64.size - 1 : Nat)).toNat

/-- The 32-bit pattern nearest to a value. A NaN keeps its sign and the upper bits of its payload, and
is made quiet. -/
def narrow (x : Binary64) : UInt32 :=
  let sign : Nat := if x.isNegative then 0x80000000 else 0
  let magnitude :=
    if x.isNaN then 0x7FC00000 ||| (x.magnitudePattern >>> 29 % 0x800000)
    else if x.isInfinite then BinaryFormat.single.infinity
    else
      let exact := BinaryFormat.double.magnitude x.magnitudePattern
      BinaryFormat.single.nearest exact.numerator exact.denominator
  UInt32.ofNat (sign + magnitude)

/-- The value of a 32-bit pattern. A NaN keeps its sign and payload, and is made quiet. -/
def widen (pattern : UInt32) : Binary64 :=
  let magnitudePattern := pattern.toNat % 0x80000000
  let negative := 0x80000000 ≤ pattern.toNat
  if BinaryFormat.single.infinity < magnitudePattern then
    ofSigned negative (nan.pattern.toNat ||| (magnitudePattern % 0x800000) <<< 29)
  else if magnitudePattern = BinaryFormat.single.infinity then
    ofSigned negative BinaryFormat.double.infinity
  else
    let exact := BinaryFormat.single.magnitude magnitudePattern
    ofQuotient negative exact.numerator exact.denominator

/-- The value survives being narrowed to 32 bits. -/
def FitsSingle (x : Binary64) : Prop := widen x.narrow = x

instance (x : Binary64) : Decidable x.FitsSingle := inferInstanceAs (Decidable (_ = _))

def toFloat (x : Binary64) : Float := Float.ofBits x.pattern

def ofFloat (x : Float) : Binary64 := ⟨x.toBits⟩

instance : Add Binary64 := ⟨fun x y => ofFloat (x.toFloat + y.toFloat)⟩

instance : Sub Binary64 := ⟨fun x y => ofFloat (x.toFloat - y.toFloat)⟩

instance : Mul Binary64 := ⟨fun x y => ofFloat (x.toFloat * y.toFloat)⟩

instance : Div Binary64 := ⟨fun x y => ofFloat (x.toFloat / y.toFloat)⟩

/-- Negation turns the sign, that of a zero or a NaN included. -/
instance : Neg Binary64 := ⟨fun x => ⟨x.pattern ^^^ signMask⟩⟩

/-- Numeric order: false as soon as a NaN is involved. -/
def isBelow (x y : Binary64) : Bool := x.toFloat < y.toFloat

/-- Numeric order or equality: false as soon as a NaN is involved. -/
def isAtMost (x y : Binary64) : Bool := x.toFloat ≤ y.toFloat

/-- Numeric equality: the two zeros are equal, and a NaN equals nothing. -/
def isEqual (x y : Binary64) : Bool := x.toFloat == y.toFloat

end Binary64
end StackCode
