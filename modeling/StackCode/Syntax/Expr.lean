import StackCode.Binary
import StackCode.Operation
import StackCode.Syntax.DataType
import StackCode.Table

/-! Expressions. Every node may carry a type; nothing is promised about types that are given. -/

namespace StackCode

inductive Literal where
  | bool (truth : Bool)
  | char (c : Char)
  | int (n : Int64)
  | uint (n : UInt64)
  | float (x : Binary64)
  | str (text : String)
deriving DecidableEq

namespace Literal

/-- The type of a literal that carries no other. -/
def defaultType : Literal → DataType
  | .bool _ => .bool
  | .char _ => .char
  | .int _ => .int64
  | .uint _ => .uint64
  | .float _ => .float
  | .str _ => .str

end Literal

inductive UnaryOp where
  | neg
  | not
deriving DecidableEq

inductive BinaryOp where
  | arith (op : Arith)
  | compare (relation : Relation)
  | logic (connective : Connective)
deriving DecidableEq

namespace Arith

def all : List Arith := [.add, .sub, .mul, .div, .mod]

def symbol : Arith → String
  | .add => "+"
  | .sub => "-"
  | .mul => "*"
  | .div => "/"
  | .mod => "%"

end Arith

namespace Relation

def all : List Relation := [.lt, .le, .gt, .ge, .eq, .ne]

def symbol : Relation → String
  | .lt => "<"
  | .le => "<="
  | .gt => ">"
  | .ge => ">="
  | .eq => "=="
  | .ne => "!="

end Relation

namespace Connective

def all : List Connective := [.and, .or]

def symbol : Connective → String
  | .and => "&&"
  | .or => "||"

end Connective

namespace UnaryOp

def all : List UnaryOp := [.neg, .not]

def symbol : UnaryOp → String
  | .neg => "-"
  | .not => "!"

def ofSymbol? (symbol : String) : Option UnaryOp := all.find? (·.symbol = symbol)

end UnaryOp

namespace BinaryOp

def all : List BinaryOp :=
  Arith.all.map .arith ++ Relation.all.map .compare ++ Connective.all.map .logic

def symbol : BinaryOp → String
  | .arith op => op.symbol
  | .compare relation => relation.symbol
  | .logic connective => connective.symbol

def ofSymbol? (symbol : String) : Option BinaryOp := all.find? (·.symbol = symbol)

end BinaryOp

inductive Expr where
  | literal (value : Literal) (ty : Option DataType)
  | var (id : SymbolId) (ty : Option DataType)
  | array (items : List Expr) (ty : Option DataType)
  | unary (op : UnaryOp) (operand : Expr) (ty : Option DataType)
  | binary (op : BinaryOp) (left right : Expr) (ty : Option DataType)
  | subscript (base index : Expr) (ty : Option DataType)
  | call (id : SymbolId) (args : List Expr) (ty : Option DataType)
deriving Inhabited

namespace Expr

def ty : Expr → Option DataType
  | .literal _ ty | .var _ ty | .array _ ty | .unary _ _ ty | .binary _ _ _ ty | .subscript _ _ ty
  | .call _ _ ty => ty

def withType (ty : Option DataType) : Expr → Expr
  | .literal value _ => .literal value ty
  | .var id _ => .var id ty
  | .array items _ => .array items ty
  | .unary op operand _ => .unary op operand ty
  | .binary op left right _ => .binary op left right ty
  | .subscript base index _ => .subscript base index ty
  | .call id args _ => .call id args ty

/-- A variable that subscripts start from. -/
structure Root where
  id : SymbolId
  ty : Option DataType
  /-- How many subscripts are applied to it. -/
  depth : Nat

/-- The variable under a chain of subscripts, if the chain ends in one. -/
def root? : Expr → Option Root
  | .var id ty => some ⟨id, ty, 0⟩
  | .subscript base _ _ => (root? base).map fun root => { root with depth := root.depth + 1 }
  | _ => none

/-- A variable under the given subscripts, outermost dimension first, with a type on the whole. -/
def elementOf (id : SymbolId) (indices : List Expr) (ty : DataType) : Expr :=
  let chain := indices.foldl (fun base index => subscript base index none) (var id none)
  chain.withType (some ty)

end Expr
end StackCode
