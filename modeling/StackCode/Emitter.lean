import StackCode.CompileError
import StackCode.Stream

/-! Writing a stream from front to back. A forward jump is written without its distance, and patched once
its target is known. -/

namespace StackCode

/-- A forward jump that waits for its target. -/
structure JumpSite where
  offset : Nat
  length : Nat
deriving DecidableEq

structure Emitter where
  code : Stream
deriving DecidableEq

namespace Emitter

def empty : Emitter := ⟨.empty⟩

/-- The offset of the next instruction. -/
def here (out : Emitter) : Nat := out.code.size

def emit (out : Emitter) (instruction : Instruction) : Emitter := ⟨out.code.push instruction⟩

def emitAll (out : Emitter) (instructions : List Instruction) : Emitter := instructions.foldl emit out

/-- Where a jump emitted next will stand. -/
def nextSite (out : Emitter) (opcode : Opcode) : JumpSite := ⟨out.here, opcode.encodedLength⟩

/-- Emits a jump of distance zero. -/
def emitJump (out : Emitter) (opcode : Opcode) : Emitter := out.emit (.withWord opcode 0)

/-- Makes an earlier jump lead to the next instruction. -/
def patchToHere (out : Emitter) (site : JumpSite) : Except CompileError Emitter :=
  match out.code.patchWord site.offset (UInt64.ofNat (out.here - (site.offset + site.length))) with
  | .ok code => .ok ⟨code⟩
  | .error error => .error (.patch error)

/-- Emits a jump back to an earlier boundary. -/
def emitJumpBack (out : Emitter) (target : Nat) : Emitter :=
  out.emit (.withWord .jumpBackward (UInt64.ofNat (out.here + Opcode.jumpBackward.encodedLength - target)))

end Emitter
end StackCode
