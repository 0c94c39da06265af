import StackCode.Decimal.Shortest
import StackCode.Numeral

/-! Reading decimal texts as floating-point values, rounded once to the nearest value. -/

namespace StackCode.Decimal

def isExponentMark (c : Char) : Bool := c == 'e' || c == 'E'

/-- An exponent that has reached this number takes no more digits. -/
def exponentLimit : Nat := 65536

/-- The exponent that a row of digits denotes, continued from `value`. Digits behind the one with which
it reaches the limit do not count. -/
def exponentFrom (value : Nat) : List Char → Nat
  | [] => value
  | c :: rest =>
    if value < exponentLimit then exponentFrom (10 * value + Numeral.digitValue c) rest else value

/-- One or more decimal digits of an exponent and nothing else. -/
def readExponentDigits? (text : List Char) : Option Nat :=
  if text ≠ [] ∧ text.all Numeral.isDigit then some (exponentFrom 0 text) else none

/-- Nothing, or an exponent mark and digits after at most one sign. -/
def readExponent? : List Char → Option Int
  | [] => some 0
  | c :: rest =>
    if isExponentMark c then
      match rest with
      | '+' :: digits => (readExponentDigits? digits).map Int.ofNat
      | '-' :: digits => (readExponentDigits? digits).map fun n => -(n : Int)
      | digits => (readExponentDigits? digits).map Int.ofNat
    else none

/-- The value nearest to `digits * 10 ^ exponent`. Beyond the greatest exponents the result is infinite
or zero without computing the power. -/
def nearest (negative : Bool) (digits : List Char) (exponent : Int) : Binary64 :=
  let significant := digits.dropWhile (· == '0')
  let places := significant.length + exponent
  if significant = [] ∨ places < -400 then Binary64.ofSigned negative 0
  else if 400 < places then Binary64.ofSigned negative BinaryFormat.double.infinity
  else
    Binary64.ofQuotient negative (Numeral.value significant * tenTo exponent) (tenTo (-exponent))

/-- Digits with at most one point among or beside them, at least one digit, then perhaps an exponent. -/
def readUnsigned? (negative : Bool) (text : List Char) : Option Binary64 :=
  let whole := text.takeWhile Numeral.isDigit
  let afterWhole := text.dropWhile Numeral.isDigit
  let (fraction, rest) :=
    match afterWhole with
    | '.' :: tail => (tail.takeWhile Numeral.isDigit, tail.dropWhile Numeral.isDigit)
    | _ => ([], afterWhole)
  if whole = [] ∧ fraction = [] then none
  else
    (readExponent? rest).map fun exponent =>
      nearest negative (whole ++ fraction) (exponent - fraction.length)

/-- The names of the values that are no numbers, in any mixture of cases. -/
def readNamed? (negative : Bool) (text : List Char) : Option Binary64 :=
  let lower := String.ofList (text.map Char.toLower)
  if lower = "inf" ∨ lower = "infinity" then some (Binary64.ofSigned negative BinaryFormat.double.infinity)
  else if lower = "nan" then some (Binary64.ofSigned negative Binary64.nan.magnitudePattern)
  else none

def readMagnitude? (negative : Bool) (text : List Char) : Option Binary64 :=
  (readNamed? negative text).or (readUnsigned? negative text)

/-- A decimal or a named value after at most one sign. -/
def read? : List Char → Option Binary64
  | '+' :: rest => readMagnitude? false rest
  | '-' :: rest => readMagnitude? true rest
  | text => readMagnitude? false text

end StackCode.Decimal
