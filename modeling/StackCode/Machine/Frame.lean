import StackCode.Machine.Operation
import StackCode.Scope
import StackCode.Stream

/-! Frames: one stream in execution, the main one or that of a call. -/

namespace StackCode

structure Limits where
  /-- Values on the stack of one frame. -/
  stack : Nat
  /-- Calls that are active at once. -/
  calls : Nat
  /-- Values at one level of an array that is allocated filled. -/
  array : Nat
deriving DecidableEq

namespace Limits

def default : Limits where
  stack := 4096
  calls := 1024
  array := 4194304

end Limits

structure Frame where
  code : Stream
  /-- The variables of the call; the main stream has none of its own. -/
  locals : Option Scope
  stack : Stack
  /-- The offset of the next instruction. -/
  next : Nat
  /-- The offset of the instruction executed last. -/
  current : Nat
deriving DecidableEq

/-- What an instruction asks for. -/
inductive Action where
  /-- To go on with this frame and these globals. -/
  | proceed (frame : Frame) (globals : Scope)
  /-- To call a built-in function from this frame. -/
  | builtin (function : Builtin) (frame : Frame)
  /-- To call a function of the program from this frame. -/
  | call (id : SymbolId) (frame : Frame)
  /-- To leave the frame. -/
  | leave (value : Option Value)

namespace Stack

/-- Puts a value on the stack if there is room for it. -/
def push (limits : Limits) (value : Value) (stack : Stack) : Except Fault Stack :=
  if stack.length < limits.stack then .ok (value :: stack) else .error .stackOverflow

end Stack

namespace Instruction

def requireWord (instruction : Instruction) : Except Fault UInt64 :=
  match instruction.operand with
  | .word word => .ok word
  | _ => .error .invalidOperand

def requireElement (instruction : Instruction) : Except Fault (SymbolId × UInt64) :=
  match instruction.operand with
  | .element id depth => .ok (id, depth)
  | _ => .error .invalidOperand

def requireFill (instruction : Instruction) : Except Fault (UInt64 × Kind) :=
  match instruction.operand with
  | .fill dims leaf => .ok (dims, leaf)
  | _ => .error .invalidOperand

/-- The value that a literal operand stands for. -/
def requireLiteral (instruction : Instruction) : Except Fault Value :=
  match instruction.operand with
  | .int n => .ok (.int n)
  | .uint n => .ok (.uint n)
  | .float x => .ok (.float x)
  | _ => .error .invalidOperand

end Instruction

namespace Frame

/-- A frame at the start of a stream. -/
def start (code : Stream) (locals : Option Scope) : Frame := ⟨code, locals, [], 0, 0⟩

def scopes (frame : Frame) (globals : Scope) : Scopes := ⟨globals, frame.locals⟩

/-- Moves on to an instruction, so that the next one is the one behind it. -/
def advance (frame : Frame) (instruction : Instruction) : Frame :=
  { frame with current := frame.next, next := frame.next + instruction.length }

/-- The frame with one more value on its stack. -/
def push (frame : Frame) (limits : Limits) (value : Value) : Except Fault Frame := do
  let stack ← frame.stack.push limits value
  .ok { frame with stack }

/-- The frame with the given operands in place of its own, and one more value on top. -/
def pushOn (frame : Frame) (limits : Limits) (rest : Stack) (value : Value) : Except Fault Frame :=
  { frame with stack := rest }.push limits value

/-- A jump over a distance, at most to the end of the stream. -/
def jumpForward (frame : Frame) (distance : UInt64) : Except Fault Frame :=
  let target := frame.next + distance.toNat
  if target ≤ frame.code.size then .ok { frame with next := target } else .error .jumpOutOfBounds

/-- A jump back over a distance, at most to the start of the stream. -/
def jumpBackward (frame : Frame) (distance : UInt64) : Except Fault Frame :=
  if distance.toNat ≤ frame.next then .ok { frame with next := frame.next - distance.toNat }
  else .error .jumpOutOfBounds

/-- Builds a text from the codes of its characters. -/
def joinChars : List Value → Except Fault (List Char)
  | [] => .ok []
  | code :: rest => do
    let c ← code.toChar
    let others ← joinChars rest
    .ok (c :: others)

def toSizes : List Value → Except Fault (List Nat)
  | [] => .ok []
  | value :: rest => do
    let size ← value.toSize
    let others ← toSizes rest
    .ok (size :: others)

def require (id : SymbolId) : Option Value → Except Fault Value
  | some value => .ok value
  | none => .error (.undefinedVariable id)

/-- Executes an instruction that the frame has moved on to. -/
def execute (limits : Limits) (globals : Scope) (frame : Frame) (instruction : Instruction) :
    Except Fault Action :=
  let proceed (frame : Frame) : Except Fault Action := .ok (.proceed frame globals)
  match instruction.opcode with
  | .pushInt _ | .pushUInt _ | .pushSingle | .pushDouble => do
    let value ← instruction.requireLiteral
    proceed (← frame.push limits value)
  | .operate operation => do
    let (result, rest) ← operation.apply frame.stack
    proceed (← frame.pushOn limits rest result)
  | .load => do
    let id ← instruction.requireWord
    let value ← require id ((frame.scopes globals).load id)
    proceed (← frame.push limits value)
  | .store => do
    let id ← instruction.requireWord
    let (value, rest) ← frame.stack.pop
    let scopes := (frame.scopes globals).store id value
    .ok (.proceed { frame with stack := rest, locals := scopes.locals } scopes.globals)
  | .loadElement => do
    let (id, depth) ← instruction.requireElement
    let (path, rest) ← frame.stack.popPath depth.toNat
    let base ← require id ((frame.scopes globals).load id)
    let value ← base.read path
    proceed (← frame.pushOn limits rest value)
  | .storeElement => do
    let (id, depth) ← instruction.requireElement
    let (value, rest) ← frame.stack.pop
    let (path, rest) ← Stack.popPath depth.toNat rest
    let base ← require id ((frame.scopes globals).load id)
    let updated ← base.write path value
    let scopes := (frame.scopes globals).replace id updated
    .ok (.proceed { frame with stack := rest, locals := scopes.locals } scopes.globals)
  | .allocString => do
    let count ← instruction.requireWord
    let (codes, rest) ← frame.stack.popMany count.toNat
    let chars ← joinChars codes
    proceed (← frame.pushOn limits rest (.str (String.ofList chars)))
  | .allocArray => do
    let count ← instruction.requireWord
    let (items, rest) ← frame.stack.popMany count.toNat
    proceed (← frame.pushOn limits rest (.array items))
  | .allocFilled => do
    let (dims, leaf) ← instruction.requireFill
    let (values, rest) ← frame.stack.popMany dims.toNat
    let shape ← toSizes values
    checkShape limits.array 1 shape
    proceed (← frame.pushOn limits rest (.filled leaf shape))
  | .jump => do
    let distance ← instruction.requireWord
    proceed (← frame.jumpForward distance)
  | .jumpBackward => do
    let distance ← instruction.requireWord
    proceed (← frame.jumpBackward distance)
  | .jumpIfFalse => do
    let distance ← instruction.requireWord
    let (cond, rest) ← frame.stack.pop
    match cond.truth? with
    | some true => proceed { frame with stack := rest }
    | some false => proceed (← { frame with stack := rest }.jumpForward distance)
    | none => .error (.mismatch .jumpIfFalse cond)
  | .call => do
    let id ← instruction.requireWord
    if isReserved id then
      match Builtin.ofId? id with
      | some function => .ok (.builtin function frame)
      | none => .error (.unknownFunction id)
    else .ok (.call id frame)
  | .ret => .ok (.leave frame.stack.head?)
  | .pop => do
    let (_, rest) ← frame.stack.pop
    proceed { frame with stack := rest }

end Frame
end StackCode
