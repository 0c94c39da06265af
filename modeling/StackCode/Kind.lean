/-! The kinds of values that the machine tells apart at run time. -/

namespace StackCode

inductive Kind where
  | int
  | uint
  | float
  | str
  | array
deriving DecidableEq

namespace Kind

def all : List Kind := [.int, .uint, .float, .str, .array]

/-- The byte that stands for a kind in an instruction. -/
def byte : Kind → UInt8
  | .int => 1
  | .uint => 2
  | .float => 3
  | .str => 4
  | .array => 5

def ofByte? : UInt8 → Option Kind
  | 1 => some .int
  | 2 => some .uint
  | 3 => some .float
  | 4 => some .str
  | 5 => some .array
  | _ => none

theorem ofByte?_byte (kind : Kind) : ofByte? kind.byte = some kind := by
  cases kind <;> rfl

def name : Kind → String
  | .int => "int"
  | .uint => "uint"
  | .float => "float"
  | .str => "str"
  | .array => "array"

def ofName? (name : String) : Option Kind := all.find? (·.name = name)

def isNumeric : Kind → Bool
  | .int | .uint | .float => true
  | .str | .array => false

end Kind
end StackCode
