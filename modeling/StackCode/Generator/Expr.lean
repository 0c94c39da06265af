import StackCode.Emitter
import StackCode.Generator.Context
import StackCode.Generator.Typing

/-! Code for expressions: operands from left to right, then the operation. An error ends the compilation;
functions entered into the context before it stay there. -/

namespace StackCode

structure Generator where
  context : Context
  out : Emitter
deriving DecidableEq

/-- A part of a compilation. -/
abbrev Gen := ExceptT CompileError (StateM Generator)

namespace Gen

def emit (instruction : Instruction) : Gen Unit :=
  modify fun generator => { generator with out := generator.out.emit instruction }

def emitAll (instructions : List Instruction) : Gen Unit :=
  modify fun generator => { generator with out := generator.out.emitAll instructions }

def operate (operation : Operation) : Gen Unit := emit (.operate operation)

def fromExcept {α : Type} : Except CompileError α → Gen α
  | .ok value => pure value
  | .error error => throw error

/-- The offset of the next instruction. -/
def here : Gen Nat := return (← get).out.here

/-- Emits a forward jump and returns where it stands. -/
def emitJump (opcode : Opcode) : Gen JumpSite := do
  let site := (← get).out.nextSite opcode
  modify fun generator => { generator with out := generator.out.emitJump opcode }
  return site

def patchToHere (site : JumpSite) : Gen Unit := do
  let out ← fromExcept ((← get).out.patchToHere site)
  modify fun generator => { generator with out }

def emitJumpBack (target : Nat) : Gen Unit :=
  modify fun generator => { generator with out := generator.out.emitJumpBack target }

/-- Brings the value on top of the stack from one type to another. -/
def convert (source target : DataType) : Gen Unit :=
  match source.conversion? target with
  | some operation => operate operation
  | none => pure ()

end Gen

namespace Literal

/-- Pushes a literal; a text is built from the codes of its characters. -/
def code : Literal → List Instruction
  | .bool truth => [.pushInt (if truth then 1 else 0)]
  | .char c => [.pushInt (Int64.ofNat c.toNat)]
  | .int n => [.pushInt n]
  | .uint n => [.pushUInt n]
  | .float x => [.pushFloat x]
  | .str text =>
    text.toList.map (fun c => Instruction.pushInt (Int64.ofNat c.toNat)) ++
      [.withWord .allocString (UInt64.ofNat text.length)]

end Literal

namespace Gen

/-- The number of arguments that a call must have, if it is known. -/
def expectedArity (id : SymbolId) : Gen (Option Nat) := do
  if isReserved id then
    match Builtin.ofId? id with
    | some builtin => return some builtin.arity
    | none => throw (.reservedId id)
  else return (← get).context.arity? id

def checkArity (id : SymbolId) (found : Nat) : Gen Unit := do
  match ← expectedArity id with
  | some expected => if expected ≠ found then throw (.arityMismatch id expected found)
  | none => pure ()

/-- The operation of a unary operator on a typed operand. -/
def unaryOperation (op : UnaryOp) (operand : Expr) : Gen Operation := do
  let ty ← fromExcept (operand.requireType .unaryOperand)
  match op.operation? ty.family? with
  | some operation => return operation
  | none => throw (.unsupportedOperator (.unary op) ty)

/-- Joins the code of two operands by a binary operator and returns the type of the result. The types
of both operands are looked at before any code is emitted. -/
def binaryWith (op : BinaryOp) (left right : Expr) (emitLeft emitRight : Gen Unit) : Gen DataType := do
  let leftType ← fromExcept (left.requireType .leftOperand)
  let rightType ← fromExcept (right.requireType .rightOperand)
  match op with
  | .logic connective =>
    emitLeft
    emitRight
    operate (.logic connective)
    return .bool
  | _ =>
    match BinaryOp.familyOf? leftType rightType with
    | none => throw (.unsupportedOperator (.binary op) (if leftType.isArray then leftType else rightType))
    | some family =>
      match op.operation? family with
      | none => throw (.unsupportedOperator (.binary op) (BinaryOp.familyType leftType family))
      | some operation =>
        emitLeft
        emitAll (← fromExcept (op.widening family leftType))
        emitRight
        emitAll (← fromExcept (op.widening family rightType))
        operate operation
        return op.resultType leftType family

def checkDepth (ty : Option DataType) (depth : Nat) : Gen Unit :=
  match ty with
  | some ty => fromExcept (ty.checkDepth depth)
  | none => pure ()

mutual

/-- Leaves the value of an expression on the stack. Subscripts on a variable are pushed from the last
dimension to the first and read in one step; other subscripts are read one after another. -/
def expr : Expr → Gen Unit
  | .literal value _ => emitAll value.code
  | .var id _ => emit (.load id)
  | .array items _ => do
    exprs items
    emit (.withWord .allocArray (UInt64.ofNat items.length))
  | .unary op operand _ => do
    let operation ← unaryOperation op operand
    expr operand
    operate operation
  | .binary op left right _ => do
    let _ ← binaryWith op left right (expr left) (expr right)
  | .subscript base index _ =>
    match base.root? with
    | some root => do
      checkDepth root.ty (root.depth + 1)
      expr index
      subscripts base
      emit (.loadElement root.id (UInt64.ofNat (root.depth + 1)))
    | none => do
      checkDepth base.ty 1
      expr base
      expr index
      operate .index
  | .call id args _ => do
    checkArity id args.length
    exprs args
    emit (.call id)

/-- The values of several expressions, in order. -/
def exprs : List Expr → Gen Unit
  | [] => pure ()
  | item :: rest => do
    expr item
    exprs rest

/-- The subscripts of a chain, the outermost one of the tree first. -/
def subscripts : Expr → Gen Unit
  | .subscript base index _ => do
    expr index
    subscripts base
  | _ => pure ()

end

/-- Joins two expressions by a binary operator and returns the type of the result. -/
def binary (op : BinaryOp) (left right : Expr) : Gen DataType :=
  binaryWith op left right (expr left) (expr right)

end Gen
end StackCode
