import StackCode.Proofs.Shapes

/-! Well-typed programs. One type per variable and one signature per function explain the types that a tree
carries. Types are compared by their shapes, so that an integer counts as a character or a truth value. -/

namespace StackCode

structure Signature where
  params : List DataType
  /-- A function without a result is called for what it does. -/
  result : Option DataType
deriving DecidableEq

structure Typing where
  /-- The types of the variables. -/
  types : Table DataType
  /-- The signatures of the functions. -/
  signatures : Table Signature

/-- What a call gives for arguments of some shapes, if it takes them; printing gives no value. -/
def Builtin.result? : Builtin → List Shape → Option (Option Shape)
  | .input, [] => some (some .text)
  | .print form, [shape] => if form.prints shape then some none else none
  | .convert conversion, [shape] => if conversion.converts shape then some (some conversion.resultShape) else none
  | _, _ => none

/-- What the statements of a body return. -/
inductive Returns where
  /-- The statements of a program return as they like. -/
  | anything
  | nothing
  | value (shape : Shape)
deriving DecidableEq

def Signature.returns (signature : Signature) : Returns :=
  match signature.result with
  | some ty => .value ty.shape
  | none => .nothing

namespace Stmt

mutual

/-- Whether every way through a statement ends in a return. -/
def returns : Stmt → Bool
  | .ret _ => true
  | .conditional list => branchesReturn list
  | .forLoop init _ _ => init.returns
  | .declare _ _ _ _ | .assign _ _ _ _ | .assignElement _ _ _ _ _ | .whileLoop _ _ | .function _ _ _
  | .expr _ => false

def anyReturns : List Stmt → Bool
  | [] => false
  | first :: rest => first.returns || anyReturns rest

def branchesReturn : Branches → Bool
  | .otherwise body => anyReturns body
  | .arm _ body rest => anyReturns body && branchesReturn rest

end

end Stmt

namespace Typing

variable (typing : Typing)

/-- A shape that the type on a node, if there is one, agrees with. -/
def annotated (ty : Option DataType) (shape : Shape) : Option Shape :=
  if ∀ found ∈ ty, found.shape = shape then some shape else none

/-- What a call gives for arguments of some shapes, if it takes them. -/
def call? (id : SymbolId) (shapes : List Shape) : Option (Option Shape) :=
  if isReserved id then (Builtin.ofId? id).bind (·.result? shapes)
  else do
    let signature ← typing.signatures.get? id
    if signature.params.map DataType.shape = shapes then some (signature.result.map DataType.shape) else none

def unary? (op : UnaryOp) (operand : Option DataType) : Option Shape := do
  let family ← (← operand).family?
  if (op.operation? (some family)).isSome then some (op.resultShape family) else none

/-- Two operands that an operator brings into a family that has it. -/
def joined? (op : BinaryOp) (left right : DataType) : Option Shape := do
  let family ← BinaryOp.familyOf? left right
  if (op.operation? family).isSome && (op.widening family left).isOk && (op.widening family right).isOk then
    some (op.resultShape family)
  else none

/-- Connectives take any numbers. -/
def binary? (op : BinaryOp) (left right : Option DataType) : Option Shape :=
  match op, left, right with
  | .logic _, some left, some right =>
    if left.shape.isNumber && right.shape.isNumber then some .integer else none
  | op, some left, some right => joined? op left right
  | _, _, _ => none

mutual

/-- The shape of the values of an expression, if it is well typed. -/
def shape? : Expr → Option Shape
  | .literal value ty => annotated ty value.defaultType.shape
  | .var id ty => do annotated ty (← typing.types.get? id).shape
  | .array items ty => do
    let shapes ← shapes? items
    let shape ← (ty.map DataType.shape).or (shapes.head?.map fun first => ⟨first.family, first.dims + 1⟩)
    if shape.dims ≠ 0 ∧ ∀ item ∈ shapes, shape.element? = some item then some shape else none
  | .unary op operand ty => do
    let _ ← shape? operand
    annotated ty (← unary? op operand.ty)
  | .binary op left right ty => do
    let _ ← shape? left
    let _ ← shape? right
    annotated ty (← binary? op left.ty right.ty)
  | .subscript base index ty => do
    let shape ← shape? base
    if shape? index = some .integer then annotated ty (← shape.element?) else none
  | .call id args ty => do
    let shapes ← shapes? args
    annotated ty (← (← typing.call? id shapes))

def shapes? : List Expr → Option (List Shape)
  | [] => some []
  | item :: rest => do return (← shape? item) :: (← shapes? rest)

end

/-- A call without a result, which is no expression but a statement. -/
def isVoidCall : Expr → Bool
  | .call id args none => (typing.shapes? args).bind (typing.call? id) = some none
  | _ => false

def isInteger (tree : Expr) : Bool := typing.shape? tree = some .integer

def isCondition (tree : Expr) : Bool := (typing.shape? tree).any (·.isNumber)

/-- Whether a variable of the type takes the value of an expression. -/
def takes (ty : DataType) (tree : Expr) : Bool :=
  tree.ty.isSome && (typing.shape? tree).any (·.becomes ty.shape)

mutual

def takesItem (itemType : DataType) : Expr → Bool
  | .array items ty =>
    if itemType.isArray then takesItems itemType.itemType items else typing.takes itemType (.array items ty)
  | item => typing.takes itemType item

def takesItems (itemType : DataType) : List Expr → Bool
  | [] => true
  | item :: rest => takesItem itemType item && takesItems itemType rest

end

/-- Whether an expression initializes a variable of the type. Literals are converted item by item; other
arrays are taken as they are. -/
def initializes (ty : DataType) : Option Expr → Bool
  | none => true
  | some tree =>
    if ty.isArray then
      match tree with
      | .array items _ => typing.takesItems ty.itemType items
      | _ => typing.shape? tree = some ty.shape
    else typing.takes ty tree

/-- Whether an assignment to `current`, plain or through an operation, has a value of its type. -/
def assigns (ty : DataType) (op : Option Arith) (current tree : Expr) : Bool :=
  match op with
  | none => typing.takes ty tree
  | some op => (typing.shape? (.binary (.arith op) current tree none)).any (·.becomes ty.shape)

def variableShape? (id : SymbolId) : Option Shape := (typing.types.get? id).map DataType.shape

/-- The statement returns, or not, as the body that it stands in has to. -/
def returnsAs (expected : Returns) : Option Expr → Bool
  | none => expected = .anything || expected = .nothing
  | some tree =>
    match expected with
    | .anything => (typing.shape? tree).isSome
    | .nothing => false
    | .value shape => typing.shape? tree = some shape

mutual

def stmt (expected : Returns) : Stmt → Bool
  | .declare id ty sizes init =>
    typing.variableShape? id = some ty.shape && sizes.all (·.all typing.isInteger) && typing.initializes ty init
  | .assign id ty op tree =>
    typing.variableShape? id = some ty.shape && typing.assigns ty op (.var id (some ty)) tree
  | .assignElement id ty indices op tree =>
    indices.all typing.isInteger &&
      (typing.variableShape? id).bind (·.under? indices.length) = some ty.shape &&
      typing.assigns ty op (.elementOf id indices ty) tree
  | .conditional list => branches expected list
  | .whileLoop cond body => typing.isCondition cond && stmts expected body
  | .forLoop init cond body => stmt expected init && typing.isCondition cond && stmts expected body
  | .function id params body =>
    match typing.signatures.get? id with
    | none => false
    | some signature =>
      params.map typing.variableShape? = signature.params.map (fun ty => some ty.shape) &&
        stmts signature.returns body && (signature.result.isNone || Stmt.anyReturns body)
  | .ret value => typing.returnsAs expected value
  | .expr tree => (typing.shape? tree).isSome || typing.isVoidCall tree

def stmts (expected : Returns) : List Stmt → Bool
  | [] => true
  | first :: rest => stmt expected first && stmts expected rest

def branches (expected : Returns) : Branches → Bool
  | .otherwise body => stmts expected body
  | .arm cond body rest => typing.isCondition cond && stmts expected body && branches expected rest

end

/-- The typing explains every type of a program, and has only signatures of functions that are declared. -/
structure Explains (statements : List Stmt) : Prop where
  wellTyped : typing.stmts .anything statements = true
  declared : ∀ entry ∈ typing.signatures.entries,
    (Declaration.find? (Declaration.ofStmts statements) entry.1).isSome = true

/-- The variables that are bound have values of their types. -/
def Admits (scope : Scope) : Prop :=
  ∀ id ty value, typing.types.get? id = some ty → scope.get? id = some value → value.Fits ty.shape

end Typing
end StackCode
