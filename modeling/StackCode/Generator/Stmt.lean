import StackCode.Generator.Expr
import StackCode.Syntax.Stmt

/-! Code for statements, and the compilation of statement lists. A function declaration emits nothing
where it stands: its body becomes a stream of its own. -/

namespace StackCode

namespace DataType

/-- The type of the elements in an array literal of this type. -/
def itemType (ty : DataType) : DataType := ⟨ty.base, ty.dims - 1⟩

/-- Pushes the zero of a scalar type. -/
def zeroScalar (ty : DataType) : Instruction :=
  match ty.base with
  | .float => .pushFloat .zero
  | .uint _ => .pushUInt 0
  | .str => .withWord .allocString 0
  | .bool | .char | .int _ => .pushInt 0

end DataType

namespace Gen

/-- Emits the value of an expression and brings it to a type. -/
def converted (value : Expr) (place : TypedPlace) (target : DataType) : Gen Unit := do
  expr value
  convert (← fromExcept (value.requireType place)) target

/-- The sizes of `dims` levels, outermost first; a missing one counts as zero. -/
def sizes : (dims : Nat) → List (Option Expr) → Gen Unit
  | 0, _ => pure ()
  | dims + 1, [] => do
    emit (.pushInt 0)
    sizes dims []
  | dims + 1, none :: rest => do
    emit (.pushInt 0)
    sizes dims rest
  | dims + 1, some size :: rest => do
    expr size
    sizes dims rest

def zeroArray (ty : DataType) (declared : List (Option Expr)) : Gen Unit := do
  sizes ty.dims declared
  emit (.allocFilled (UInt64.ofNat ty.dims) ty.leafKind)

/-- The zero of a type; an array has the declared sizes. -/
def zero (ty : DataType) (declared : List (Option Expr)) : Gen Unit :=
  if ty.isArray then zeroArray ty declared else emit ty.zeroScalar

/-- Several zeros of a type. -/
def padding (ty : DataType) (declared : List (Option Expr)) : (count : Nat) → Gen Unit
  | 0 => pure ()
  | count + 1 => do
    zero ty declared
    padding ty declared count

/-- The size that a literal declares for the outermost level. -/
def declaredSize? (declared : List (Option Expr)) : Option Nat :=
  declared.head?.join.bind Expr.literalSize?

/-- Pads an array literal with `found` items to its declared size and makes the array. -/
def finishArray (itemType : DataType) (declared : List (Option Expr)) (found : Nat) : Gen Unit := do
  let count := max found ((declaredSize? declared).getD 0)
  padding itemType declared.tail (count - found)
  emit (.withWord .allocArray (UInt64.ofNat count))

mutual

/-- One item of an array literal. Literals within literals are padded too as long as the type has
dimensions left. -/
def arrayItem (itemType : DataType) (declared : List (Option Expr)) : Expr → Gen Unit
  | .array items ty =>
    if itemType.isArray then do
      arrayItems itemType.itemType declared.tail items
      finishArray itemType.itemType declared items.length
    else converted (.array items ty) .arrayElement itemType
  | item => converted item .arrayElement itemType

def arrayItems (itemType : DataType) (declared : List (Option Expr)) : List Expr → Gen Unit
  | [] => pure ()
  | item :: rest => do
    arrayItem itemType declared item
    arrayItems itemType declared rest

end

/-- An array literal that initializes a variable of an array type. -/
def arrayLiteral (ty : DataType) (declared : List (Option Expr)) (items : List Expr) : Gen Unit := do
  arrayItems ty.itemType declared.tail items
  finishArray ty.itemType declared items.length

/-- The initial value of a declared variable. An array that is no literal is taken as it is. -/
def initialValue (ty : DataType) (declared : List (Option Expr)) : Option Expr → Gen Unit
  | none => zero ty declared
  | some value =>
    if ty.isArray then
      match value with
      | .array items _ => arrayLiteral ty declared items
      | _ => expr value
    else converted value .initializer ty

/-- The value of an assignment to `current`, brought to its type. -/
def assignedValue (ty : DataType) (op : Option Arith) (current value : Expr) : Gen Unit :=
  match op with
  | none => converted value .assignedValue ty
  | some op => do
    let result ← binary (.arith op) current value
    convert result ty

/-- Runs a compilation into a stream of its own. -/
def separately (body : Gen Unit) : Gen Stream := do
  let outer := (← get).out
  modify fun generator => { generator with out := .empty }
  body
  let code := (← get).out.code
  modify fun generator => { generator with out := outer }
  return code

def declareFunction (id : SymbolId) (params : List SymbolId) : Gen Unit := do
  let context ← fromExcept ((← get).context.declareFunction id params)
  modify fun generator => { generator with context }

def defineFunction (id : SymbolId) (code : Stream) : Gen Unit :=
  modify fun generator => { generator with context := generator.context.defineFunction id code }

/-- A loop around a condition and a body. -/
def loop (cond : Expr) (body : Gen Unit) : Gen Unit := do
  let start ← here
  expr cond
  let exit ← emitJump .jumpIfFalse
  body
  emitJumpBack start
  patchToHere exit

mutual

def stmt : Stmt → Gen Unit
  | .declare id ty declared init => do
    initialValue ty declared init
    emit (.store id)
  | .assign id ty op value => do
    assignedValue ty op (.var id (some ty)) value
    emit (.store id)
  | .assignElement id ty indices op value => do
    exprs indices.reverse
    assignedValue ty op (.elementOf id indices ty) value
    emit (.storeElement id (UInt64.ofNat indices.length))
  | .conditional list => branches list
  | .whileLoop cond body => loop cond (stmts body)
  | .forLoop init cond body => do
    stmt init
    loop cond (stmts body)
  | .function id params body => do
    declareFunction id params
    defineFunction id (← separately (stmts body))
  | .ret value => do
    if let some value := value then expr value
    emit (.plain .ret)
  | .expr value => do
    expr value
    if value.ty.isSome then emit (.plain .pop)

def stmts : List Stmt → Gen Unit
  | [] => pure ()
  | first :: rest => do
    stmt first
    stmts rest

/-- A condition skips its body if it fails, and a body leaves past all other branches. -/
def branches : Branches → Gen Unit
  | .otherwise body => stmts body
  | .arm cond body rest => do
    expr cond
    let skip ← emitJump .jumpIfFalse
    stmts body
    let exit ← emitJump .jump
    patchToHere skip
    branches rest
    patchToHere exit

end

end Gen

/-- Compiles statements into a stream. The context that results holds the functions entered before an
error as well as those of a success; a function whose body has an error stays without code. -/
def compile (context : Context) (statements : List Stmt) : Except CompileError Stream × Context :=
  let (result, generator) := (Gen.stmts statements).run.run ⟨context, .empty⟩
  (result.map fun _ => generator.out.code, generator.context)

/-- Compiles statements with an empty context into a program. -/
def compileProgram (statements : List Stmt) : Except CompileError Program :=
  let (result, context) := compile .empty statements
  result.map fun main => ⟨main, context.functions⟩

end StackCode
