import StackCode.Kind
import StackCode.Numeral
import StackCode.Width

/-! The types that annotate syntax: a base type and a number of array dimensions. -/

namespace StackCode

inductive BaseType where
  | bool
  | char
  | int (width : Width)
  | uint (width : Width)
  | float
  | str
deriving DecidableEq

namespace BaseType

def all : List BaseType :=
  [.bool, .char] ++ Width.all.map .int ++ Width.all.map .uint ++ [.float, .str]

def name : BaseType → String
  | .bool => "bool"
  | .char => "char"
  | .int width => "int" ++ Numeral.ofNat width.bits
  | .uint width => "uint" ++ Numeral.ofNat width.bits
  | .float => "float"
  | .str => "str"

/-- Truth values, characters and integers share the integer operations. -/
def isIntegral : BaseType → Bool
  | .bool | .char | .int _ | .uint _ => true
  | .float | .str => false

/-- The kind of the values of a base type. -/
def kind : BaseType → Kind
  | .bool | .char | .int _ => .int
  | .uint _ => .uint
  | .float => .float
  | .str => .str

end BaseType

structure DataType where
  base : BaseType
  dims : Nat
deriving DecidableEq

namespace DataType

def scalar (base : BaseType) : DataType := ⟨base, 0⟩

def bool : DataType := scalar .bool

def char : DataType := scalar .char

def int64 : DataType := scalar (.int .w64)

def uint64 : DataType := scalar (.uint .w64)

def float : DataType := scalar .float

def str : DataType := scalar .str

def isArray (ty : DataType) : Bool := ty.dims != 0

def isFloat (ty : DataType) : Bool := !ty.isArray && ty.base == .float

def isStr (ty : DataType) : Bool := !ty.isArray && ty.base == .str

def isChar (ty : DataType) : Bool := !ty.isArray && ty.base == .char

def isIntegral (ty : DataType) : Bool := !ty.isArray && ty.base.isIntegral

/-- The type of the elements: an array has one dimension less, a text consists of characters. -/
def element? (ty : DataType) : Option DataType :=
  if ty.isArray then some ⟨ty.base, ty.dims - 1⟩
  else if ty.isStr then some char
  else none

/-- The kind of the values at the leaves. -/
def leafKind (ty : DataType) : Kind := ty.base.kind

/-- The name of the base type and a pair of brackets per dimension. -/
def text (ty : DataType) : String :=
  ty.base.name ++ String.join (List.replicate ty.dims "[]")

/-- How many pairs of brackets a text consists of. -/
def readBrackets? : List Char → Option Nat
  | [] => some 0
  | '[' :: ']' :: rest => (readBrackets? rest).map (· + 1)
  | _ => none

def ofText? (text : String) : Option DataType := do
  let name := text.toList.takeWhile (· != '[')
  let base ← BaseType.all.find? (·.name = String.ofList name)
  let dims ← readBrackets? (text.toList.drop name.length)
  return ⟨base, dims⟩

end DataType
end StackCode
