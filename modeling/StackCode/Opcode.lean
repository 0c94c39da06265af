import StackCode.Operation
import StackCode.Width

/-! The instruction set: opcodes with their bytes and mnemonics, the layout of their operands, and
their effect on the operand stack. -/

namespace StackCode

inductive Opcode where
  | pushInt (width : Width)
  | pushUInt (width : Width)
  | pushSingle
  | pushDouble
  | operate (operation : Operation)
  | load
  | store
  | loadElement
  | storeElement
  | allocString
  | allocArray
  | allocFilled
  | jump
  | jumpBackward
  | jumpIfFalse
  | call
  | ret
  | pop
deriving DecidableEq

/-- How the bytes after an opcode are read. Every number is little-endian. -/
inductive Layout where
  | none
  | signed (width : Width)
  | unsigned (width : Width)
  | single
  | double
  | word
  | twoWords
  | wordAndKind
deriving DecidableEq

/-- What an instruction does to the height of the operand stack. -/
inductive StackEffect where
  /-- Takes `pops` values and leaves `pushes`. -/
  | fixed (pops pushes : Nat)
  /-- Takes `extra` values beside the count in the operand, and leaves `pushes`. -/
  | counted (extra pushes : Nat)
  /-- Depends on the function called. -/
  | call
  /-- Leaves the frame. -/
  | ret
deriving DecidableEq

namespace Layout

/-- The bytes of a word operand. -/
def wordBytes : Nat := 8

def byteCount : Layout → Nat
  | .none => 0
  | .signed width => width.bytes
  | .unsigned width => width.bytes
  | .single => 4
  | .double => 8
  | .word => wordBytes
  | .twoWords => 2 * wordBytes
  | .wordAndKind => wordBytes + 1

def isEmpty (layout : Layout) : Bool := layout.byteCount == 0

end Layout

namespace Opcode

/-- All opcodes in ascending order of their bytes. -/
def all : List Opcode :=
  [.pushInt .w8, .pushInt .w16, .pushInt .w32, .pushInt .w64,
   .pushUInt .w8, .pushUInt .w16, .pushUInt .w32, .pushUInt .w64, .pushSingle, .pushDouble,
   .operate .negInt, .operate .negFloat, .operate .notInt, .operate .notFloat,
   .operate (.intArith .add), .operate (.floatArith .add), .operate .concat,
   .operate (.intArith .sub), .operate (.floatArith .sub),
   .operate (.intArith .mul), .operate (.floatArith .mul),
   .operate (.intArith .div), .operate (.floatArith .div), .operate (.intArith .mod),
   .operate (.compare .lt .int), .operate (.compare .lt .float), .operate (.compare .lt .str),
   .operate (.compare .le .int), .operate (.compare .le .float), .operate (.compare .le .str),
   .operate (.compare .gt .int), .operate (.compare .gt .float), .operate (.compare .gt .str),
   .operate (.compare .ge .int), .operate (.compare .ge .float), .operate (.compare .ge .str),
   .operate (.compare .eq .int), .operate (.compare .eq .float), .operate (.compare .eq .str),
   .operate (.compare .ne .int), .operate (.compare .ne .float), .operate (.compare .ne .str),
   .operate (.logic .and), .operate (.logic .or),
   .operate .intToFloat, .operate .floatToInt, .operate .floatToBool,
   .load, .store, .loadElement, .storeElement, .operate .index,
   .allocString, .allocArray, .allocFilled,
   .jump, .jumpBackward, .jumpIfFalse, .call, .ret, .pop]

def byte : Opcode → UInt8
  | .pushInt .w8 => 0x01
  | .pushInt .w16 => 0x02
  | .pushInt .w32 => 0x03
  | .pushInt .w64 => 0x04
  | .pushUInt .w8 => 0x05
  | .pushUInt .w16 => 0x06
  | .pushUInt .w32 => 0x07
  | .pushUInt .w64 => 0x08
  | .pushSingle => 0x09
  | .pushDouble => 0x0A
  | .operate .negInt => 0x10
  | .operate .negFloat => 0x11
  | .operate .notInt => 0x12
  | .operate .notFloat => 0x13
  | .operate (.intArith .add) => 0x14
  | .operate (.floatArith .add) => 0x15
  | .operate .concat => 0x16
  | .operate (.intArith .sub) => 0x17
  | .operate (.floatArith .sub) => 0x18
  | .operate (.intArith .mul) => 0x19
  | .operate (.floatArith .mul) => 0x1A
  | .operate (.intArith .div) => 0x1B
  | .operate (.floatArith .div) => 0x1C
  | .operate (.intArith .mod) => 0x1D
  | .operate (.compare .lt .int) => 0x20
  | .operate (.compare .lt .float) => 0x21
  | .operate (.compare .lt .str) => 0x22
  | .operate (.compare .le .int) => 0x23
  | .operate (.compare .le .float) => 0x24
  | .operate (.compare .le .str) => 0x25
  | .operate (.compare .gt .int) => 0x26
  | .operate (.compare .gt .float) => 0x27
  | .operate (.compare .gt .str) => 0x28
  | .operate (.compare .ge .int) => 0x29
  | .operate (.compare .ge .float) => 0x2A
  | .operate (.compare .ge .str) => 0x2B
  | .operate (.compare .eq .int) => 0x2C
  | .operate (.compare .eq .float) => 0x2D
  | .operate (.compare .eq .str) => 0x2E
  | .operate (.compare .ne .int) => 0x2F
  | .operate (.compare .ne .float) => 0x30
  | .operate (.compare .ne .str) => 0x31
  | .operate (.logic .and) => 0x38
  | .operate (.logic .or) => 0x39
  | .operate .intToFloat => 0x3C
  | .operate .floatToInt => 0x3D
  | .operate .floatToBool => 0x3E
  | .load => 0x40
  | .store => 0x41
  | .loadElement => 0x42
  | .storeElement => 0x43
  | .operate .index => 0x44
  | .allocString => 0x50
  | .allocArray => 0x51
  | .allocFilled => 0x52
  | .jump => 0x60
  | .jumpBackward => 0x61
  | .jumpIfFalse => 0x62
  | .call => 0x63
  | .ret => 0x64
  | .pop => 0x65

def ofByte? : UInt8 → Option Opcode
  | 0x01 => some (.pushInt .w8)
  | 0x02 => some (.pushInt .w16)
  | 0x03 => some (.pushInt .w32)
  | 0x04 => some (.pushInt .w64)
  | 0x05 => some (.pushUInt .w8)
  | 0x06 => some (.pushUInt .w16)
  | 0x07 => some (.pushUInt .w32)
  | 0x08 => some (.pushUInt .w64)
  | 0x09 => some .pushSingle
  | 0x0A => some .pushDouble
  | 0x10 => some (.operate .negInt)
  | 0x11 => some (.operate .negFloat)
  | 0x12 => some (.operate .notInt)
  | 0x13 => some (.operate .notFloat)
  | 0x14 => some (.operate (.intArith .add))
  | 0x15 => some (.operate (.floatArith .add))
  | 0x16 => some (.operate .concat)
  | 0x17 => some (.operate (.intArith .sub))
  | 0x18 => some (.operate (.floatArith .sub))
  | 0x19 => some (.operate (.intArith .mul))
  | 0x1A => some (.operate (.floatArith .mul))
  | 0x1B => some (.operate (.intArith .div))
  | 0x1C => some (.operate (.floatArith .div))
  | 0x1D => some (.operate (.intArith .mod))
  | 0x20 => some (.operate (.compare .lt .int))
  | 0x21 => some (.operate (.compare .lt .float))
  | 0x22 => some (.operate (.compare .lt .str))
  | 0x23 => some (.operate (.compare .le .int))
  | 0x24 => some (.operate (.compare .le .float))
  | 0x25 => some (.operate (.compare .le .str))
  | 0x26 => some (.operate (.compare .gt .int))
  | 0x27 => some (.operate (.compare .gt .float))
  | 0x28 => some (.operate (.compare .gt .str))
  | 0x29 => some (.operate (.compare .ge .int))
  | 0x2A => some (.operate (.compare .ge .float))
  | 0x2B => some (.operate (.compare .ge .str))
  | 0x2C => some (.operate (.compare .eq .int))
  | 0x2D => some (.operate (.compare .eq .float))
  | 0x2E => some (.operate (.compare .eq .str))
  | 0x2F => some (.operate (.compare .ne .int))
  | 0x30 => some (.operate (.compare .ne .float))
  | 0x31 => some (.operate (.compare .ne .str))
  | 0x38 => some (.operate (.logic .and))
  | 0x39 => some (.operate (.logic .or))
  | 0x3C => some (.operate .intToFloat)
  | 0x3D => some (.operate .floatToInt)
  | 0x3E => some (.operate .floatToBool)
  | 0x40 => some .load
  | 0x41 => some .store
  | 0x42 => some .loadElement
  | 0x43 => some .storeElement
  | 0x44 => some (.operate .index)
  | 0x50 => some .allocString
  | 0x51 => some .allocArray
  | 0x52 => some .allocFilled
  | 0x60 => some .jump
  | 0x61 => some .jumpBackward
  | 0x62 => some .jumpIfFalse
  | 0x63 => some .call
  | 0x64 => some .ret
  | 0x65 => some .pop
  | _ => none

def mnemonic : Opcode → String
  | .pushInt .w8 => "PUSH_I8"
  | .pushInt .w16 => "PUSH_I16"
  | .pushInt .w32 => "PUSH_I32"
  | .pushInt .w64 => "PUSH_I64"
  | .pushUInt .w8 => "PUSH_U8"
  | .pushUInt .w16 => "PUSH_U16"
  | .pushUInt .w32 => "PUSH_U32"
  | .pushUInt .w64 => "PUSH_U64"
  | .pushSingle => "PUSH_F32"
  | .pushDouble => "PUSH_F64"
  | .operate .negInt => "NEG_I"
  | .operate .negFloat => "NEG_F"
  | .operate .notInt => "NOT_I"
  | .operate .notFloat => "NOT_F"
  | .operate (.intArith .add) => "ADD_I"
  | .operate (.floatArith .add) => "ADD_F"
  | .operate .concat => "ADD_S"
  | .operate (.intArith .sub) => "SUB_I"
  | .operate (.floatArith .sub) => "SUB_F"
  | .operate (.intArith .mul) => "MUL_I"
  | .operate (.floatArith .mul) => "MUL_F"
  | .operate (.intArith .div) => "DIV_I"
  | .operate (.floatArith .div) => "DIV_F"
  | .operate (.intArith .mod) => "MOD"
  | .operate (.compare .lt .int) => "LT_I"
  | .operate (.compare .lt .float) => "LT_F"
  | .operate (.compare .lt .str) => "LT_S"
  | .operate (.compare .le .int) => "LE_I"
  | .operate (.compare .le .float) => "LE_F"
  | .operate (.compare .le .str) => "LE_S"
  | .operate (.compare .gt .int) => "GT_I"
  | .operate (.compare .gt .float) => "GT_F"
  | .operate (.compare .gt .str) => "GT_S"
  | .operate (.compare .ge .int) => "GE_I"
  | .operate (.compare .ge .float) => "GE_F"
  | .operate (.compare .ge .str) => "GE_S"
  | .operate (.compare .eq .int) => "EQ_I"
  | .operate (.compare .eq .float) => "EQ_F"
  | .operate (.compare .eq .str) => "EQ_S"
  | .operate (.compare .ne .int) => "NE_I"
  | .operate (.compare .ne .float) => "NE_F"
  | .operate (.compare .ne .str) => "NE_S"
  | .operate (.logic .and) => "AND"
  | .operate (.logic .or) => "OR"
  | .operate .intToFloat => "INT_TO_FLOAT"
  | .operate .floatToInt => "FLOAT_TO_INT"
  | .operate .floatToBool => "FLOAT_TO_BOOL"
  | .load => "LOAD"
  | .store => "STORE"
  | .loadElement => "LOAD_ELEM"
  | .storeElement => "STORE_INDEX"
  | .operate .index => "INDEX"
  | .allocString => "ALLOCATE_STRING"
  | .allocArray => "ALLOCATE_ARRAY"
  | .allocFilled => "ALLOCATE_ARRAY_FILLED"
  | .jump => "JUMP"
  | .jumpBackward => "JUMP_BACKWARD"
  | .jumpIfFalse => "JUMP_IF_FALSE"
  | .call => "CALL"
  | .ret => "RETURN"
  | .pop => "POP"

def ofMnemonic? (text : String) : Option Opcode := all.find? (·.mnemonic = text)

def layout : Opcode → Layout
  | .pushInt width => .signed width
  | .pushUInt width => .unsigned width
  | .pushSingle => .single
  | .pushDouble => .double
  | .load | .store | .allocString | .allocArray | .jump | .jumpBackward | .jumpIfFalse | .call => .word
  | .loadElement | .storeElement => .twoWords
  | .allocFilled => .wordAndKind
  | .operate _ | .ret | .pop => .none

/-- The bytes of an encoded instruction, opcode included. -/
def encodedLength (opcode : Opcode) : Nat := 1 + opcode.layout.byteCount

def stackEffect : Opcode → StackEffect
  | .pushInt _ | .pushUInt _ | .pushSingle | .pushDouble | .load => .fixed 0 1
  | .operate operation => .fixed operation.arity 1
  | .store | .jumpIfFalse | .pop => .fixed 1 0
  | .jump | .jumpBackward => .fixed 0 0
  | .loadElement | .allocString | .allocArray | .allocFilled => .counted 0 1
  | .storeElement => .counted 1 0
  | .call => .call
  | .ret => .ret

def isJump : Opcode → Bool
  | .jump | .jumpBackward | .jumpIfFalse => true
  | _ => false

theorem ofByte?_byte (opcode : Opcode) : ofByte? opcode.byte = some opcode := by
  rcases opcode with width | width | _ | _ | operation | _ | _ | _ | _ | _ | _ | _ | _ | _ | _ | _ | _ | _
  case pushInt => cases width <;> rfl
  case pushUInt => cases width <;> rfl
  case operate =>
    cases operation
    case intArith op => cases op <;> rfl
    case floatArith op => cases op <;> rfl
    case compare relation family => cases relation <;> cases family <;> rfl
    case logic connective => cases connective <;> rfl
    all_goals rfl
  all_goals rfl

end Opcode
end StackCode
