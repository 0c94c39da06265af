import StackCode.Builtin
import StackCode.Decimal.Style
import StackCode.Program
import StackCode.Text.Joined

/-! Readable listings of streams and programs. -/

namespace StackCode.Listing

/-- Floats in listings show a point or an exponent; from 10^16 on and below 10^-4 they have an exponent. -/
def floatStyle : Decimal.Style where
  pointZero := true
  isPositional := fun exponent => -4 ≤ exponent && exponent < 16

/-- Offsets are padded to four digits. -/
def offsetText (offset : Nat) : String := Numeral.padded 4 offset

/-- A word operand with what it refers to: the target of a jump, the name of a built-in function. -/
def wordText (offset : Nat) (instruction : Instruction) (word : UInt64) : String :=
  let number := Numeral.ofNat word.toNat
  if instruction.opcode.isJump then
    match instruction.jumpTarget? offset with
    | some target => number ++ " -> " ++ offsetText target
    | none => number ++ " -> ?"
  else if instruction.opcode = .call then
    match Builtin.ofId? word with
    | some builtin => number ++ " (" ++ builtin.name ++ ")"
    | none => number
  else number

/-- The operand of an instruction at `offset`; nothing if it has none. -/
def operandText (offset : Nat) (instruction : Instruction) : Option String :=
  match instruction.operand with
  | .none => none
  | .int n => some (Numeral.ofInt n.toInt)
  | .uint n => some (Numeral.ofNat n.toNat)
  | .float x => some (floatStyle.render x)
  | .word word => some (wordText offset instruction word)
  | .element id depth => some (Numeral.ofNat id.toNat ++ " " ++ Numeral.ofNat depth.toNat)
  | .fill dims leaf => some (Numeral.ofNat dims.toNat ++ " " ++ leaf.name)

/-- The line of an instruction at `offset`. -/
def line (offset : Nat) (instruction : Instruction) : String :=
  let mnemonic := instruction.opcode.mnemonic
  let text :=
    match operandText offset instruction with
    | none => mnemonic
    | some operand => mnemonic ++ " " ++ operand
  offsetText offset ++ "  " ++ text

def lines : List (Nat × Instruction) → String
  | [] => ""
  | (offset, instruction) :: rest => line offset instruction ++ "\n" ++ lines rest

/-- The listing of a stream that decodes to its end. -/
def ofStream (code : Stream) : Except DecodeError String := code.instructions.map lines

def functionHeader (id : SymbolId) (params : List SymbolId) : String :=
  "\nfunction " ++ Numeral.ofNat id.toNat ++ " (" ++
    Text.commaSeparated (params.map fun param => Numeral.ofNat param.toNat) ++ "):\n"

def ofFunctions : List (SymbolId × Function) → Except DecodeError String
  | [] => .ok ""
  | (id, function) :: rest => do
    let body ← ofStream function.code
    let others ← ofFunctions rest
    return functionHeader id function.params ++ body ++ others

/-- The main stream, then the functions in ascending order of their identifiers. -/
def ofProgram (program : Program) : Except DecodeError String := do
  let main ← ofStream program.main
  let functions ← ofFunctions program.functions.entries
  return "main:\n" ++ main ++ functions

end StackCode.Listing
