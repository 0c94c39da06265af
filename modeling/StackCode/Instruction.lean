import StackCode.Binary
import StackCode.Kind
import StackCode.Opcode
import StackCode.Table

/-! Instructions: an opcode with an operand. The operand need not have the shape that the opcode calls
for; encoding fills what is missing with zeros. -/

namespace StackCode

inductive Operand where
  | none
  | int (n : Int64)
  | uint (n : UInt64)
  | float (x : Binary64)
  /-- An identifier, a jump distance or a count. -/
  | word (n : UInt64)
  /-- A variable and how many subscripts reach into it. -/
  | element (id : SymbolId) (depth : UInt64)
  /-- A number of dimensions and the kind of the leaves. -/
  | fill (dims : UInt64) (leaf : Kind)
deriving DecidableEq

structure Instruction where
  opcode : Opcode
  operand : Operand
deriving DecidableEq

namespace Instruction

def plain (opcode : Opcode) : Instruction := ⟨opcode, .none⟩

def operate (operation : Operation) : Instruction := plain (.operate operation)

def withWord (opcode : Opcode) (word : UInt64) : Instruction := ⟨opcode, .word word⟩

/-- Pushes a signed integer in the least width that holds it. -/
def pushInt (n : Int64) : Instruction := ⟨.pushInt (Width.leastSigned n), .int n⟩

/-- Pushes an unsigned integer in the least width that holds it. -/
def pushUInt (n : UInt64) : Instruction := ⟨.pushUInt (Width.leastUnsigned n), .uint n⟩

/-- Pushes a float, in four bytes if nothing is lost. -/
def pushFloat (x : Binary64) : Instruction :=
  ⟨if x.FitsSingle then .pushSingle else .pushDouble, .float x⟩

def load (id : SymbolId) : Instruction := withWord .load id

def store (id : SymbolId) : Instruction := withWord .store id

def call (id : SymbolId) : Instruction := withWord .call id

def loadElement (id : SymbolId) (depth : UInt64) : Instruction := ⟨.loadElement, .element id depth⟩

def storeElement (id : SymbolId) (depth : UInt64) : Instruction := ⟨.storeElement, .element id depth⟩

def allocFilled (dims : UInt64) (leaf : Kind) : Instruction := ⟨.allocFilled, .fill dims leaf⟩

/-- The bytes that the instruction takes in a stream. -/
def length (instruction : Instruction) : Nat := instruction.opcode.encodedLength

def word? (instruction : Instruction) : Option UInt64 :=
  match instruction.operand with
  | .word word => some word
  | _ => none

/-- Offsets in a stream stay below this bound; no jump can leave it upwards. -/
def offsetBound : Nat := UInt64.size

/-- Where a jump that stands at `offset` leads. The distance counts from the first byte after the jump.
There is no target before the start of a stream or beyond the bound of offsets. -/
def jumpTarget? (offset : Nat) (instruction : Instruction) : Option Nat :=
  let next := offset + instruction.length
  match instruction.word? with
  | none => none
  | some distance =>
    match instruction.opcode with
    | .jump | .jumpIfFalse =>
      if next + distance.toNat < offsetBound then some (next + distance.toNat) else none
    | .jumpBackward => if distance.toNat ≤ next then some (next - distance.toNat) else none
    | _ => none

end Instruction
end StackCode
