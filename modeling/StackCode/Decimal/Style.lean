import StackCode.Decimal.Shortest
import StackCode.Numeral

/-! The text of floating-point values: the shortest digits, laid out as a style says. -/

namespace StackCode.Decimal

structure Style where
  /-- Whole numbers written positionally end in a point and a zero. -/
  pointZero : Bool
  /-- Which exponents of the leading digit are written positionally; the others with an exponent. -/
  isPositional : Int → Bool

/-- Digits with the point after the first `places` of them; zeros fill the places on either side. -/
def positional (style : Style) (digits : List Char) (places : Int) : List Char :=
  let zeros (count : Int) : List Char := List.replicate count.toNat '0'
  if places ≤ 0 then '0' :: '.' :: zeros (-places) ++ digits
  else if digits.length ≤ places then
    digits ++ zeros (places - digits.length) ++ if style.pointZero then ['.', '0'] else []
  else digits.take places.toNat ++ '.' :: digits.drop places.toNat

/-- One digit before the point, and none after it if there are no more digits. -/
def scientific (digits : List Char) (exponent : Int) : List Char :=
  digits.take 1 ++ (if digits.length ≤ 1 then [] else '.' :: digits.drop 1) ++
    'e' :: (Numeral.ofInt exponent).toList

def Scaled.layout (style : Style) (decimal : Scaled) : List Char :=
  let digits := (Numeral.ofNat decimal.digits).toList
  let places := digits.length + decimal.exponent
  if style.isPositional (places - 1) then positional style digits places
  else scientific digits (places - 1)

/-- The text of a value. Zero keeps its sign; a NaN shows none. -/
def Style.render (style : Style) (x : Binary64) : String :=
  if x.isNaN then "NaN"
  else
    let unsigned :=
      if x.isInfinite then "inf"
      else if x.isZero then (if style.pointZero then "0.0" else "0")
      else String.ofList ((shortest x.magnitudePattern).layout style)
    if x.isNegative then "-" ++ unsigned else unsigned

end StackCode.Decimal
