/-! Decimal numerals of integers: how they are written, and which texts are read as one. -/

namespace StackCode.Numeral

def ofNat (n : Nat) : String := n.repr

def ofInt (n : Int) : String :=
  if n < 0 then "-" ++ ofNat n.natAbs else ofNat n.natAbs

/-- A numeral padded with zeros on the left to at least `width` digits. -/
def padded (width n : Nat) : String :=
  let digits := ofNat n
  String.ofList (List.replicate (width - digits.length) '0') ++ digits

def isDigit (c : Char) : Bool := '0' ≤ c && c ≤ '9'

def digitValue (c : Char) : Nat := c.toNat - '0'.toNat

/-- The number that a row of digits denotes, continued from `value`. -/
def valueFrom (value : Nat) : List Char → Nat
  | [] => value
  | c :: rest => valueFrom (10 * value + digitValue c) rest

/-- The number that a row of digits denotes, continued from `value * scale + block`. Digits are gathered in
a block until the power of ten by their count reaches the limit, so that the number as a whole is
multiplied once for each block. -/
def valueInBlocks (limit value block scale : Nat) : List Char → Nat
  | [] => value * scale + block
  | c :: rest =>
    if scale < limit then valueInBlocks limit value (10 * block + digitValue c) (10 * scale) rest
    else valueInBlocks limit (value * scale + block) (digitValue c) 10 rest

theorem valueInBlocks_eq_valueFrom (limit value block scale : Nat) (digits : List Char) :
    valueInBlocks limit value block scale digits = valueFrom (value * scale + block) digits := by
  induction digits generalizing value block scale with
  | nil => rfl
  | cons c rest ih =>
    change _ = valueFrom (10 * (value * scale + block) + digitValue c) rest
    rw [valueInBlocks]
    by_cases open_block : scale < limit
    · rw [if_pos open_block, ih, Nat.mul_left_comm, Nat.mul_add, Nat.add_assoc]
    · rw [if_neg open_block, ih, Nat.mul_comm]

/-- The number that a row of digits denotes. -/
def value (digits : List Char) : Nat := valueInBlocks (1 <<< 1024) 0 0 1 digits

theorem value_eq_valueFrom (digits : List Char) : value digits = valueFrom 0 digits := by
  rw [value, valueInBlocks_eq_valueFrom, Nat.zero_mul]

/-- One or more decimal digits and nothing else. -/
def readNat? (text : List Char) : Option Nat :=
  if text ≠ [] ∧ text.all isDigit then some (value text) else none

/-- Decimal digits after at most one plus sign. -/
def readUnsigned? : List Char → Option Nat
  | '+' :: digits => readNat? digits
  | digits => readNat? digits

/-- Decimal digits after at most one sign. -/
def readSigned? : List Char → Option Int
  | '+' :: digits => (readNat? digits).map Int.ofNat
  | '-' :: digits => (readNat? digits).map fun n => -(n : Int)
  | digits => (readNat? digits).map Int.ofNat

/-- A signed numeral in the range of 64-bit integers. -/
def readInt64? (text : List Char) : Option Int64 :=
  match readSigned? text with
  | some n => if Int64.minValue.toInt ≤ n ∧ n ≤ Int64.maxValue.toInt then some (Int64.ofInt n) else none
  | none => none

/-- An unsigned numeral in the range of 64-bit integers. -/
def readUInt64? (text : List Char) : Option UInt64 :=
  match readUnsigned? text with
  | some n => if n < UInt64.size then some (UInt64.ofNat n) else none
  | none => none

end StackCode.Numeral
