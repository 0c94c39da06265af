import StackCode.DecodeError
import StackCode.Syntax.Expr

/-! Why a tree cannot be compiled. -/

namespace StackCode

/-- The places where an expression must carry a type. -/
inductive TypedPlace where
  | initializer
  | assignedValue
  | unaryOperand
  | leftOperand
  | rightOperand
  | arrayElement
deriving DecidableEq

inductive Operator where
  | unary (op : UnaryOp)
  | binary (op : BinaryOp)
deriving DecidableEq

inductive CompileError where
  | unsupportedOperator (operator : Operator) (ty : DataType)
  | missingType (place : TypedPlace)
  | duplicateFunction (id : SymbolId)
  | subscriptOnScalar (ty : DataType)
  /-- A function of the program uses a reserved identifier, or a call uses one that is not taken. -/
  | reservedId (id : SymbolId)
  | arityMismatch (id : SymbolId) (expected found : Nat)
  | idsExhausted
  | patch (error : DecodeError)
deriving DecidableEq

namespace TypedPlace

def text : TypedPlace → String
  | .initializer => "initializer"
  | .assignedValue => "assigned value"
  | .unaryOperand => "unary operand"
  | .leftOperand => "left operand"
  | .rightOperand => "right operand"
  | .arrayElement => "array element"

end TypedPlace

namespace Operator

def symbol : Operator → String
  | .unary op => op.symbol
  | .binary op => op.symbol

end Operator

namespace CompileError

def message : CompileError → String
  | .unsupportedOperator operator ty => "operator '" ++ operator.symbol ++ "' is not defined for " ++ ty.text
  | .missingType place => place.text ++ " has no type"
  | .duplicateFunction id => "function " ++ Numeral.ofNat id.toNat ++ " is declared twice"
  | .subscriptOnScalar ty => "cannot subscript a value of type " ++ ty.text
  | .reservedId id => "Symbol ID " ++ Numeral.ofNat id.toNat ++ " is reserved for built-ins"
  | .arityMismatch id expected found =>
    "function " ++ Numeral.ofNat id.toNat ++ " takes " ++ Numeral.ofNat expected ++ " arguments, " ++
      Numeral.ofNat found ++ " given"
  | .idsExhausted => "Symbol ID space exhausted"
  | .patch error => "jump patch failed: " ++ error.message

end CompileError
end StackCode
