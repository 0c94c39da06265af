import StackCode.Builtin
import StackCode.CompileError
import StackCode.Instruction

/-! Which operation an operator stands for, by the types of its operands, and what its result is. -/

namespace StackCode

namespace DataType

/-- The operand family of a scalar type. -/
def family? (ty : DataType) : Option Family :=
  if ty.isIntegral then some .int
  else if ty.isFloat then some .float
  else if ty.isStr then some .str
  else none

/-- The types that a chain of `depth` subscripts passes through must all have elements. -/
def checkDepth (ty : DataType) : (depth : Nat) → Except CompileError Unit
  | 0 => .ok ()
  | depth + 1 =>
    match ty.element? with
    | some element => element.checkDepth depth
    | none => .error (.subscriptOnScalar ty)

/-- The operation that brings a value of one scalar type to another, if one is needed. -/
def conversion? (source target : DataType) : Option Operation :=
  if source.isArray || target.isArray then none
  else if target.isFloat && source.isIntegral then some .intToFloat
  else if source.isFloat && target.base == .bool then some .floatToBool
  else if source.isFloat && target.isIntegral then some .floatToInt
  else none

end DataType

namespace Arith

/-- The same operation on floats; they have no remainder. -/
def float? : Arith → Option FloatArith
  | .add => some .add
  | .sub => some .sub
  | .mul => some .mul
  | .div => some .div
  | .mod => none

end Arith

namespace UnaryOp

def operation? : UnaryOp → Option Family → Option Operation
  | .neg, some .int => some .negInt
  | .neg, some .float => some .negFloat
  | .not, some .int => some .notInt
  | .not, some .float => some .notFloat
  | _, some .str => none
  | _, none => none

end UnaryOp

namespace BinaryOp

def operation? : BinaryOp → Family → Option Operation
  | .arith op, .int => some (.intArith op)
  | .arith op, .float => op.float?.map .floatArith
  | .arith .add, .str => some .concat
  | .arith _, .str => none
  | .compare relation, family => some (.compare relation family)
  | .logic connective, _ => some (.logic connective)

/-- Texts take precedence over floats, and floats over integers. -/
def familyOf? (left right : DataType) : Option Family :=
  if left.isStr || right.isStr then some .str
  else if left.isFloat || right.isFloat then some .float
  else if left.isIntegral && right.isIntegral then some .int
  else none

/-- The type of a result within a family; integers keep the type of the left operand. -/
def familyType (left : DataType) : Family → DataType
  | .str => .str
  | .float => .float
  | .int => left

def resultType (op : BinaryOp) (left : DataType) (family : Family) : DataType :=
  match op with
  | .arith _ => familyType left family
  | .compare _ | .logic _ => .bool

/-- What follows an operand to bring it into the operator's family. A character joins a text only
by addition. -/
def widening (op : BinaryOp) (family : Family) (ty : DataType) : Except CompileError (List Instruction) :=
  match family with
  | .str =>
    if ty.isStr then .ok []
    else if ty.isChar && op == .arith .add then .ok [.call (Builtin.convert .charToStr).id]
    else .error (.unsupportedOperator (.binary op) ty)
  | .float =>
    if ty.isFloat then .ok []
    else if ty.isIntegral then .ok [.operate .intToFloat]
    else .error (.unsupportedOperator (.binary op) ty)
  | .int => if ty.isIntegral then .ok [] else .error (.unsupportedOperator (.binary op) ty)

end BinaryOp

namespace Expr

/-- The type that an expression must carry at a place. -/
def requireType (expr : Expr) (place : TypedPlace) : Except CompileError DataType :=
  match expr.ty with
  | some ty => .ok ty
  | none => .error (.missingType place)

/-- The size that a literal declares, if it is one of a natural number. -/
def literalSize? : Expr → Option Nat
  | .literal (.int n) _ => if 0 ≤ n.toInt then some n.toInt.toNat else none
  | .literal (.uint n) _ => some n.toNat
  | _ => none

end Expr
end StackCode
