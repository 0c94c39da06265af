import StackCode.Table
import StackCode.Width

/-! The functions that every program can call. Their identifiers lie in a range reserved for them. -/

namespace StackCode

/-- The first identifier that a program may use for a function of its own. -/
def reservedIds : SymbolId := 64

def isReserved (id : SymbolId) : Bool := id < reservedIds

/-- How a value is printed. -/
inductive PrintForm where
  | bool
  | char
  | int (width : Width)
  | uint (width : Width)
  | float
  | str
deriving DecidableEq

/-- What a value is turned into. -/
inductive Conversion where
  | bool
  | char
  | int (width : Width)
  | uint (width : Width)
  | float
  | str
  /-- The text of one character. -/
  | charToStr
  /-- The length of a text or an array. -/
  | length
deriving DecidableEq

inductive Builtin where
  | print (form : PrintForm)
  /-- Reads a line. -/
  | input
  | convert (conversion : Conversion)
deriving DecidableEq

namespace Builtin

/-- All built-in functions in ascending order of their identifiers. -/
def all : List Builtin :=
  [.print .bool, .print .char,
   .print (.int .w8), .print (.int .w16), .print (.int .w32), .print (.int .w64),
   .print (.uint .w8), .print (.uint .w16), .print (.uint .w32), .print (.uint .w64),
   .print .float, .print .str, .input, .convert .bool, .convert .char,
   .convert (.int .w8), .convert (.int .w16), .convert (.int .w32), .convert (.int .w64),
   .convert (.uint .w8), .convert (.uint .w16), .convert (.uint .w32), .convert (.uint .w64),
   .convert .float, .convert .str, .convert .charToStr, .convert .length]

def id : Builtin → SymbolId
  | .print .bool => 0
  | .print .char => 1
  | .print (.int width) => 2 + UInt64.ofNat width.rank
  | .print (.uint width) => 6 + UInt64.ofNat width.rank
  | .print .float => 10
  | .print .str => 11
  | .input => 12
  | .convert .bool => 13
  | .convert .char => 14
  | .convert (.int width) => 15 + UInt64.ofNat width.rank
  | .convert (.uint width) => 19 + UInt64.ofNat width.rank
  | .convert .float => 23
  | .convert .str => 24
  | .convert .charToStr => 25
  | .convert .length => 26

def ofId? (id : SymbolId) : Option Builtin := all[id.toNat]?

def name : Builtin → String
  | .print .bool => "print_bool"
  | .print .char => "print_char"
  | .print (.int .w8) => "print_int8"
  | .print (.int .w16) => "print_int16"
  | .print (.int .w32) => "print_int32"
  | .print (.int .w64) => "print_int64"
  | .print (.uint .w8) => "print_uint8"
  | .print (.uint .w16) => "print_uint16"
  | .print (.uint .w32) => "print_uint32"
  | .print (.uint .w64) => "print_uint64"
  | .print .float => "print_float"
  | .print .str => "print_str"
  | .input => "input"
  | .convert .bool => "bool"
  | .convert .char => "char"
  | .convert (.int .w8) => "int8"
  | .convert (.int .w16) => "int16"
  | .convert (.int .w32) => "int32"
  | .convert (.int .w64) => "int64"
  | .convert (.uint .w8) => "uint8"
  | .convert (.uint .w16) => "uint16"
  | .convert (.uint .w32) => "uint32"
  | .convert (.uint .w64) => "uint64"
  | .convert .float => "float"
  | .convert .str => "str"
  | .convert .charToStr => "char_to_str"
  | .convert .length => "len"

/-- How many arguments a call takes from the stack. -/
def arity : Builtin → Nat
  | .input => 0
  | .print _ | .convert _ => 1

def isPrint : Builtin → Bool
  | .print _ => true
  | .input | .convert _ => false

/-- Printing leaves nothing on the stack, all other functions leave one value. -/
def returnsValue (builtin : Builtin) : Bool := !builtin.isPrint

theorem ofId?_id (builtin : Builtin) : ofId? builtin.id = some builtin := by
  cases builtin with
  | input => rfl
  | print form =>
    cases form
    case int width => cases width <;> rfl
    case uint width => cases width <;> rfl
    all_goals rfl
  | convert conversion =>
    cases conversion
    case int width => cases width <;> rfl
    case uint width => cases width <;> rfl
    all_goals rfl

end Builtin
end StackCode
