/-! The four widths in which integers are encoded, named by types and cut by conversions. -/

namespace StackCode

inductive Width where
  | w8
  | w16
  | w32
  | w64
deriving DecidableEq

namespace Width

def all : List Width := [.w8, .w16, .w32, .w64]

def bytes : Width → Nat
  | .w8 => 1
  | .w16 => 2
  | .w32 => 4
  | .w64 => 8

def bits (width : Width) : Nat := 8 * width.bytes

/-- How many integers have this width, two to the power of the bits. -/
def modulus : Width → Nat
  | .w8 => 0x100
  | .w16 => 0x10000
  | .w32 => 0x100000000
  | .w64 => 0x10000000000000000

/-- The position of a width in ascending order, which numbers the members of a family of four. -/
def rank : Width → Nat
  | .w8 => 0
  | .w16 => 1
  | .w32 => 2
  | .w64 => 3

/-- How many of the 64 bits in which integers are kept lie above this width. -/
def excess (width : Width) : Nat := Width.w64.bits - width.bits

/-- The lowest bits of a signed integer. They are shifted to the top and back, and the highest of them is
spread over the bits above. -/
def wrapSigned (width : Width) (n : Int64) : Int64 :=
  (n <<< Int64.ofNat width.excess) >>> Int64.ofNat width.excess

/-- The lowest bits of an unsigned integer, with zeros above. -/
def wrapUnsigned (width : Width) (n : UInt64) : UInt64 :=
  (n <<< UInt64.ofNat width.excess) >>> UInt64.ofNat width.excess

/-- The signed integers of this width include `n`. -/
def HoldsSigned (width : Width) (n : Int64) : Prop :=
  -(width.modulus / 2 : Nat) ≤ n.toInt ∧ n.toInt < (width.modulus / 2 : Nat)

/-- The unsigned integers of this width include `n`. -/
def HoldsUnsigned (width : Width) (n : UInt64) : Prop :=
  n.toNat < width.modulus

instance (width : Width) (n : Int64) : Decidable (width.HoldsSigned n) :=
  inferInstanceAs (Decidable (_ ∧ _))

instance (width : Width) (n : UInt64) : Decidable (width.HoldsUnsigned n) :=
  inferInstanceAs (Decidable (_ < _))

/-- The least width whose signed integers include `n`. -/
def leastSigned (n : Int64) : Width :=
  if HoldsSigned .w8 n then .w8
  else if HoldsSigned .w16 n then .w16
  else if HoldsSigned .w32 n then .w32
  else .w64

/-- The least width whose unsigned integers include `n`. -/
def leastUnsigned (n : UInt64) : Width :=
  if HoldsUnsigned .w8 n then .w8
  else if HoldsUnsigned .w16 n then .w16
  else if HoldsUnsigned .w32 n then .w32
  else .w64

end Width
end StackCode
