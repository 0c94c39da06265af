import StackCode.DecodeError
import StackCode.Instruction

/-! Instructions as bytes: the opcode's byte and then the operand in the opcode's layout. -/

namespace StackCode

/-- The low `count` bytes of a number, least significant first. -/
def littleEndian : (count n : Nat) → List UInt8
  | 0, _ => []
  | count + 1, n => UInt8.ofNat n :: littleEndian count (n / 256)

@[simp] theorem length_littleEndian (count n : Nat) : (littleEndian count n).length = count := by
  induction count generalizing n with
  | zero => rfl
  | succ count ih => simp [littleEndian, ih]

def ofLittleEndian : List UInt8 → Nat
  | [] => 0
  | byte :: rest => byte.toNat + 256 * ofLittleEndian rest

/-- The signed integer whose two's complement in a width is `n`. -/
def ofTwosComplement (width : Width) (n : Nat) : Int64 :=
  Int64.ofInt ((n : Int).bmod width.modulus)

namespace Operand

/-- The 64-bit pattern of an operand that consists of one number; zero for the others. -/
def pattern : Operand → UInt64
  | .int n => n.toUInt64
  | .uint n => n
  | .float x => x.pattern
  | .word n => n
  | .none | .element _ _ | .fill _ _ => 0

/-- The 32-bit pattern of a float operand; zero for the others. -/
def singlePattern : Operand → UInt32
  | .float x => x.narrow
  | _ => 0

/-- The bytes of an operand in a layout. Parts that the operand does not have are zero, and a kind that
it does not have is that of signed integers. -/
def encode (layout : Layout) (operand : Operand) : List UInt8 :=
  match layout with
  | .none => []
  | .signed width | .unsigned width => littleEndian width.bytes operand.pattern.toNat
  | .single => littleEndian 4 operand.singlePattern.toNat
  | .double | .word => littleEndian 8 operand.pattern.toNat
  | .twoWords =>
    match operand with
    | .element id depth => littleEndian 8 id.toNat ++ littleEndian 8 depth.toNat
    | _ => littleEndian 8 0 ++ littleEndian 8 0
  | .wordAndKind =>
    match operand with
    | .fill dims leaf => littleEndian 8 dims.toNat ++ [leaf.byte]
    | _ => littleEndian 8 0 ++ [Kind.int.byte]

@[simp] theorem length_encode (layout : Layout) (operand : Operand) :
    (operand.encode layout).length = layout.byteCount := by
  cases layout with
  | twoWords => cases operand <;> simp [encode, Layout.byteCount, Layout.wordBytes]
  | wordAndKind => cases operand <;> simp [encode, Layout.byteCount, Layout.wordBytes]
  | _ => simp [encode, Layout.byteCount, Layout.wordBytes]

/-- The operand that fills a layout, or the byte that should name a kind and does not. -/
def decode (layout : Layout) (bytes : List UInt8) : Except UInt8 Operand :=
  match layout with
  | .none => .ok .none
  | .signed width => .ok (.int (ofTwosComplement width (ofLittleEndian bytes)))
  | .unsigned _ => .ok (.uint (UInt64.ofNat (ofLittleEndian bytes)))
  | .single => .ok (.float (Binary64.widen (UInt32.ofNat (ofLittleEndian bytes))))
  | .double => .ok (.float ⟨UInt64.ofNat (ofLittleEndian bytes)⟩)
  | .word => .ok (.word (UInt64.ofNat (ofLittleEndian bytes)))
  | .twoWords =>
    .ok (.element (UInt64.ofNat (ofLittleEndian (bytes.take 8)))
      (UInt64.ofNat (ofLittleEndian (bytes.drop 8))))
  | .wordAndKind =>
    let kindByte := (bytes.drop 8).headD 0
    match Kind.ofByte? kindByte with
    | .some leaf => .ok (.fill (UInt64.ofNat (ofLittleEndian (bytes.take 8))) leaf)
    | .none => .error kindByte

end Operand

/-- The opcode that a byte stands for; the offset is that of the byte, for the error. -/
def Opcode.decode (offset : Nat) (byte : UInt8) : Except DecodeError Opcode :=
  match Opcode.ofByte? byte with
  | some opcode => .ok opcode
  | none => .error (if byte = 0 then .illegalOpcode offset else .reservedOpcode offset byte)

/-- The kind that a byte stands for; the offset is that of the byte, for the error. -/
def Kind.decode (offset : Nat) (byte : UInt8) : Except DecodeError Kind :=
  match Kind.ofByte? byte with
  | some kind => .ok kind
  | none => .error (.invalidKind offset byte)

namespace Instruction

def encode (instruction : Instruction) : List UInt8 :=
  instruction.opcode.byte :: instruction.operand.encode instruction.opcode.layout

@[simp] theorem length_encode (instruction : Instruction) :
    instruction.encode.length = instruction.length := by
  simp [encode, length, Opcode.encodedLength, Nat.add_comm]

/-- Decodes the instruction that starts at `offset`. The operand's bytes are all there or the
instruction is truncated. -/
def decode (bytes : Array UInt8) (offset : Nat) : Except DecodeError Instruction :=
  match bytes[offset]? with
  | none => .error (.outOfRange offset bytes.size)
  | some byte =>
    match Opcode.decode offset byte with
    | .error error => .error error
    | .ok opcode =>
      let needed := opcode.layout.byteCount
      let available := bytes.size - (offset + 1)
      if available < needed then .error (.truncatedOperand offset opcode needed available)
      else
        match Operand.decode opcode.layout (bytes.extract (offset + 1) (offset + 1 + needed)).toList with
        | .ok operand => .ok ⟨opcode, operand⟩
        | .error kindByte => .error (.invalidKind (offset + 1 + Layout.wordBytes) kindByte)

end Instruction
end StackCode
