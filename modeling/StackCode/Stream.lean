import StackCode.Instruction.Codec

/-! Streams of encoded instructions. A stream has no header: instructions stand one after another from
the first byte on. Any bytes are a stream; whether they decode is a question of its own. -/

namespace StackCode

structure Stream where
  bytes : Array UInt8
deriving DecidableEq

/-- Instructions with their offsets in order, up to the error that ends the scan if there is one. -/
structure Scan where
  instructions : List (Nat × Instruction)
  failure : Option DecodeError

namespace Stream

def empty : Stream := ⟨#[]⟩

instance : Inhabited Stream := ⟨empty⟩

def size (code : Stream) : Nat := code.bytes.size

def isEmpty (code : Stream) : Bool := code.bytes.isEmpty

/-- Adds an instruction at the end. -/
def push (code : Stream) (instruction : Instruction) : Stream :=
  ⟨code.bytes ++ instruction.encode.toArray⟩

def append (code other : Stream) : Stream := ⟨code.bytes ++ other.bytes⟩

@[simp] theorem size_push (code : Stream) (instruction : Instruction) :
    (code.push instruction).size = code.size + instruction.length := by
  simp [push, size]

@[simp] theorem size_append (code other : Stream) : (code.append other).size = code.size + other.size := by
  simp [append, size]

def ofInstructions (instructions : List Instruction) : Stream := instructions.foldl push empty

def decodeAt (code : Stream) (offset : Nat) : Except DecodeError Instruction :=
  Instruction.decode code.bytes offset

/-- Overwrites the bytes from `offset` on. -/
def overwrite (bytes : Array UInt8) (offset : Nat) : List UInt8 → Array UInt8
  | [] => bytes
  | byte :: rest => overwrite (bytes.setIfInBounds offset byte) (offset + 1) rest

/-- Overwrites the word operand of the instruction at `offset`, if there is room for one. -/
def patchWord (code : Stream) (offset : Nat) (word : UInt64) : Except DecodeError Stream :=
  if offset + 1 + Layout.wordBytes ≤ code.size then
    .ok ⟨overwrite code.bytes (offset + 1) (littleEndian Layout.wordBytes word.toNat)⟩
  else .error (.outOfRange offset code.size)

/-- Scans at most `count` instructions from `offset` on. -/
def scanFrom (code : Stream) (offset : Nat) : (count : Nat) → Scan
  | 0 => ⟨[], none⟩
  | count + 1 =>
    if code.size ≤ offset then ⟨[], none⟩
    else
      match code.decodeAt offset with
      | .error error => ⟨[], some error⟩
      | .ok instruction =>
        let rest := scanFrom code (offset + instruction.length) count
        ⟨(offset, instruction) :: rest.instructions, rest.failure⟩

/-- All instructions of a stream: each takes a byte at least, so there are not more than bytes. -/
def scan (code : Stream) : Scan := code.scanFrom 0 code.size

/-- The instructions of a stream that decodes to its end. -/
def instructions (code : Stream) : Except DecodeError (List (Nat × Instruction)) :=
  match code.scan.failure with
  | some error => .error error
  | none => .ok code.scan.instructions

/-- The offsets of all instructions and of the end. -/
def boundaries (code : Stream) : Except DecodeError (List Nat) :=
  code.instructions.map fun instructions => instructions.map (·.1) ++ [code.size]

/-- The first jump that does not lead to one of the given boundaries. -/
def misalignedJump? (boundaries : List Nat) : List (Nat × Instruction) → Option DecodeError
  | [] => none
  | (offset, instruction) :: rest =>
    if instruction.opcode.isJump then
      match instruction.jumpTarget? offset with
      | some target =>
        if target ∈ boundaries then misalignedJump? boundaries rest
        else some (.misalignedJump offset (some target))
      | none => some (.misalignedJump offset none)
    else misalignedJump? boundaries rest

/-- Every byte belongs to an instruction, and every jump leads to an instruction or the end. -/
def checkJumps (code : Stream) : Except DecodeError Unit := do
  let instructions ← code.instructions
  let boundaries ← code.boundaries
  match misalignedJump? boundaries instructions with
  | some error => .error error
  | none => .ok ()

end Stream
end StackCode
