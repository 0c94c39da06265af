import StackCode.Numeral
import StackCode.Opcode

/-! What can be wrong with a byte stream. -/

namespace StackCode

inductive DecodeError where
  /-- A zero byte stands where an opcode should. -/
  | illegalOpcode (offset : Nat)
  /-- No opcode has this byte. -/
  | reservedOpcode (offset : Nat) (byte : UInt8)
  /-- The stream ends within the operand. -/
  | truncatedOperand (offset : Nat) (opcode : Opcode) (needed available : Nat)
  /-- The byte that should name a kind names none. -/
  | invalidKind (offset : Nat) (byte : UInt8)
  /-- The offset is not within the stream. -/
  | outOfRange (offset length : Nat)
  /-- A jump leads to no instruction boundary; without a target if it leaves the range of offsets. -/
  | misalignedJump (offset : Nat) (target : Option Nat)
deriving DecidableEq

namespace DecodeError

/-- A byte as two hexadecimal digits behind their mark. -/
def hexByte (byte : UInt8) : String :=
  String.ofList ['0', 'x', Nat.digitChar (byte.toNat / 16), Nat.digitChar (byte.toNat % 16)]

/-- The number that stands for a missing target: the greatest offset. -/
def missingTarget : Nat := UInt64.size - 1

def message : DecodeError → String
  | .illegalOpcode offset => "illegal opcode 0x00 at byte " ++ Numeral.ofNat offset
  | .reservedOpcode offset byte =>
    "reserved opcode " ++ hexByte byte ++ " at byte " ++ Numeral.ofNat offset
  | .truncatedOperand offset opcode needed available =>
    "truncated " ++ opcode.mnemonic ++ " at byte " ++ Numeral.ofNat offset ++ ": needs " ++
      Numeral.ofNat needed ++ " operand bytes, " ++ Numeral.ofNat available ++ " left"
  | .invalidKind offset byte => "invalid value kind " ++ hexByte byte ++ " at byte " ++ Numeral.ofNat offset
  | .outOfRange offset length =>
    "offset " ++ Numeral.ofNat offset ++ " is past the end of the stream (length " ++
      Numeral.ofNat length ++ ")"
  | .misalignedJump offset target =>
    "jump at byte " ++ Numeral.ofNat offset ++ " targets byte " ++
      Numeral.ofNat (target.getD missingTarget) ++ ", which is not an instruction boundary"

end DecodeError
end StackCode
