import StackCode.Generator.Stmt
import StackCode.Machine.Step
import StackCode.Proofs.Trees

/-! The meaning of syntax trees, by their structure and the types they carry. Expressions have values and
statements change variables and the console; there is neither code nor a stack. Of the machine's limits only
the numbers enter: how many values a call holds at a time, how deep calls are nested, how large arrays get.

A call that passes another number of arguments than its function has parameters has no meaning, nor has one
that returns no value and stands where a value is needed. -/

namespace StackCode

/-- What an evaluation changes. -/
structure State where
  scopes : Scopes
  console : Console

/-- How an evaluation ends. A fault leaves the global variables and the console as they are. -/
inductive Outcome (α : Type) where
  | done (value : α) (state : State)
  | fault (cause : Fault) (globals : Scope) (console : Console)
  /-- There is no meaning. -/
  | undefined
  /-- The fuel did not suffice for all calls and rounds of loops. -/
  | exhausted

@[ext] structure Evaluation (α : Type) where
  run : State → Outcome α

namespace Evaluation

variable {α : Type}

instance : Monad Evaluation where
  pure value := ⟨fun state => .done value state⟩
  bind first next := ⟨fun state =>
    match first.run state with
    | .done value after => (next value).run after
    | .fault cause globals console => .fault cause globals console
    | .undefined => .undefined
    | .exhausted => .exhausted⟩

@[simp] theorem run_pure (value : α) (state : State) : (pure value : Evaluation α).run state = .done value state :=
  rfl

theorem run_bind {β : Type} (first : Evaluation α) (next : α → Evaluation β) (state : State) :
    (first >>= next).run state =
      match first.run state with
      | .done value after => (next value).run after
      | .fault cause globals console => .fault cause globals console
      | .undefined => .undefined
      | .exhausted => .exhausted :=
  rfl

def fail (cause : Fault) : Evaluation α := ⟨fun state => .fault cause state.scopes.globals state.console⟩

def undefined : Evaluation α := ⟨fun _ => .undefined⟩

def exhausted : Evaluation α := ⟨fun _ => .exhausted⟩

def attempt : Except Fault α → Evaluation α
  | .ok value => pure value
  | .error cause => fail cause

/-- The value where one is needed. -/
def needed (evaluation : Evaluation (Option Value)) : Evaluation Value := do
  match ← evaluation with
  | some value => pure value
  | none => undefined

/-- A value beside `pending` others that the call holds. -/
def keep (limits : Limits) (pending : Nat) (value : Value) : Evaluation Value :=
  if pending < limits.stack then pure value else fail .stackOverflow

def scopes : Evaluation Scopes := ⟨fun state => .done state.scopes state⟩

def setScopes (scopes : Scopes) : Evaluation Unit := ⟨fun state => .done () { state with scopes }⟩

def load (id : SymbolId) : Evaluation Value := do
  match (← scopes).load id with
  | some value => pure value
  | none => fail (.undefinedVariable id)

def store (id : SymbolId) (value : Value) : Evaluation Unit := do
  setScopes ((← scopes).store id value)

/-- Overwrites an element of a variable. -/
def storeElement (id : SymbolId) (path : List Value) (value : Value) : Evaluation Unit := do
  let updated ← attempt ((← load id).write path value)
  setScopes ((← scopes).replace id updated)

/-- An action on the console. -/
def onConsole (action : Console → Except ConsoleFailure α × Console) : Evaluation α := ⟨fun state =>
  match action state.console with
  | (.ok value, console) => .done value { state with console }
  | (.error failure, console) => .fault (.console failure) state.scopes.globals console⟩

/-- Evaluates in a scope of its own over the globals. -/
def within (locals : Scope) (body : Evaluation α) : Evaluation α := do
  let outer ← scopes
  setScopes ⟨outer.globals, some locals⟩
  let value ← body
  setScopes ⟨(← scopes).globals, outer.locals⟩
  return value

end Evaluation

namespace Operation

/-- The result of an operation with one operand. -/
def onOne (operation : Operation) (x : Value) : Except Fault Value :=
  (operation.apply [x]).map Prod.fst

/-- The result of an operation with two operands. -/
def onTwo (operation : Operation) (left right : Value) : Except Fault Value :=
  (operation.apply [right, left]).map Prod.fst

end Operation

/-- The call of a function by a caller that holds `pending` values beside the arguments. -/
abbrev Call := (pending : Nat) → SymbolId → (arguments : List Value) → Evaluation (Option Value)

/-- How a statement ends. -/
inductive Completion where
  /-- The next statement follows. Expression statements whose value has no type leave it behind; these
  values, the last one first, stay with the call. -/
  | normal (left : List Value)
  /-- The call returns. -/
  | returned (value : Option Value)

namespace Completion

/-- What a call returns whose body ends so. -/
def value : Completion → Option Value
  | .normal _ => none
  | .returned value => value

end Completion

namespace Meaning

open Evaluation

section Expressions

variable (limits : Limits) (call : Call)

def unary (pending : Nat) (operation : Operation) (x : Value) : Evaluation Value := do
  keep limits pending (← attempt (operation.onOne x))

def binary (pending : Nat) (operation : Operation) (left right : Value) : Evaluation Value := do
  keep limits pending (← attempt (operation.onTwo left right))

/-- The characters of a text are all held before the text is made of them. -/
def literal (pending : Nat) : Literal → Evaluation Value
  | .bool truth => keep limits pending (.ofBool truth)
  | .char c => keep limits pending (.ofChar c)
  | .int n => keep limits pending (.int n)
  | .uint n => keep limits pending (.uint n)
  | .float x => keep limits pending (.float x)
  | .str text =>
    if pending + text.length ≤ limits.stack then keep limits pending (.str text) else fail .stackOverflow

/-- An operand in the operator's family: an integer becomes a float among floats, and a character that
is added to a text becomes a text. -/
def widened (pending : Nat) (op : BinaryOp) (family : Option Family) (ty : Option DataType) (x : Value) :
    Evaluation Value :=
  match family, ty with
  | some .float, some ty => if ty.isIntegral then unary limits pending .intToFloat x else pure x
  | some .str, some ty =>
    if ty.isChar && op == .arith .add then do
      keep limits pending (← attempt (Conversion.charToStr.apply x))
    else pure x
  | _, _ => pure x

mutual

/-- What an expression gives to a call that holds `pending` values; a call may give nothing. -/
def expr (pending : Nat) : Expr → Evaluation (Option Value)
  | .literal value _ => some <$> literal limits pending value
  | .var id _ => some <$> do keep limits pending (← load id)
  | .array items _ => some <$> do keep limits pending (.array (← exprs pending items))
  | .unary op operand _ => some <$> do
    unary limits pending (op.operationOn operand.ty) (← needed (expr pending operand))
  | .binary op left right _ => some <$> do
    let family := op.familyOn left.ty right.ty
    let x ← widened limits pending op family left.ty (← needed (expr pending left))
    let y ← widened limits (pending + 1) op family right.ty (← needed (expr (pending + 1) right))
    binary limits pending (op.operationOn family) x y
  | .subscript base index _ => some <$>
    match base.root? with
    | some root => do
      let last ← needed (expr pending index)
      let path ← subscripts (pending + 1) base
      keep limits pending (← attempt ((← load root.id).read (path ++ [last])))
    | none => do
      let container ← needed (expr pending base)
      let position ← needed (expr (pending + 1) index)
      binary limits pending .index container position
  | .call id args _ => do call pending id (← exprs pending args)

/-- The values of several expressions, in order. -/
def exprs (pending : Nat) : List Expr → Evaluation (List Value)
  | [] => pure []
  | item :: rest => do
    let value ← needed (expr pending item)
    return value :: (← exprs (pending + 1) rest)

/-- The subscripts of a chain, first dimension first; the last one is evaluated first. -/
def subscripts (pending : Nat) : Expr → Evaluation (List Value)
  | .subscript base index _ => do
    let last ← needed (expr pending index)
    return (← subscripts (pending + 1) base) ++ [last]
  | _ => pure []

end

def value (pending : Nat) (tree : Expr) : Evaluation Value := needed (expr limits call pending tree)

def truth (pending : Nat) (cond : Expr) : Evaluation Bool := do
  let x ← value limits call pending cond
  match x.truth? with
  | some truth => pure truth
  | none => fail (.mismatch .jumpIfFalse x)

/-- Brings a value from one type to another. -/
def convert (pending : Nat) (source : Option DataType) (target : DataType) (x : Value) : Evaluation Value :=
  match source.bind (·.conversion? target) with
  | some operation => unary limits pending operation x
  | none => pure x

def converted (pending : Nat) (tree : Expr) (target : DataType) : Evaluation Value := do
  convert limits pending tree.ty target (← value limits call pending tree)

/-- The size of one level; a missing one counts as zero. -/
def size (pending : Nat) : Option Expr → Evaluation Value
  | some tree => value limits call pending tree
  | none => keep limits pending (.int 0)

/-- The sizes of `dims` levels, outermost first. -/
def sizes (pending : Nat) : (dims : Nat) → List (Option Expr) → Evaluation (List Value)
  | 0, _ => pure []
  | dims + 1, declared => do
    let first ← size limits call pending declared.head?.join
    return first :: (← sizes (pending + 1) dims declared.tail)

/-- The zero of a type; an array has the declared sizes. -/
def zero (pending : Nat) (ty : DataType) (declared : List (Option Expr)) : Evaluation Value :=
  if ty.isArray then do
    let shape ← attempt (Frame.toSizes (← sizes limits call pending ty.dims declared))
    attempt (checkShape limits.array 1 shape)
    keep limits pending (.filled ty.leafKind shape)
  else keep limits pending (.zero ty.leafKind)

/-- Several zeros of a type. -/
def padding (pending : Nat) (ty : DataType) (declared : List (Option Expr)) : Nat → Evaluation (List Value)
  | 0 => pure []
  | count + 1 => do
    let item ← zero limits call pending ty declared
    return item :: (← padding (pending + 1) ty declared count)

/-- The array of some items, padded with zeros to the size that a literal declares. -/
def paddedArray (pending : Nat) (itemType : DataType) (declared : List (Option Expr)) (items : List Value) :
    Evaluation Value := do
  let missing := (Gen.declaredSize? declared).getD 0 - items.length
  let zeros ← padding limits call (pending + items.length) itemType declared.tail missing
  keep limits pending (.array (items ++ zeros))

mutual

/-- One item of an array literal. Literals within literals are padded too as long as the type has
dimensions left. -/
def arrayItem (pending : Nat) (itemType : DataType) (declared : List (Option Expr)) : Expr → Evaluation Value
  | .array items ty =>
    if itemType.isArray then do
      let values ← arrayItems pending itemType.itemType declared.tail items
      paddedArray limits call pending itemType.itemType declared values
    else converted limits call pending (.array items ty) itemType
  | item => converted limits call pending item itemType

def arrayItems (pending : Nat) (itemType : DataType) (declared : List (Option Expr)) :
    List Expr → Evaluation (List Value)
  | [] => pure []
  | item :: rest => do
    let value ← arrayItem pending itemType declared item
    return value :: (← arrayItems (pending + 1) itemType declared rest)

end

/-- The initial value of a declared variable. An array that is no literal is taken as it is. -/
def initialValue (pending : Nat) (ty : DataType) (declared : List (Option Expr)) :
    Option Expr → Evaluation Value
  | none => zero limits call pending ty declared
  | some tree =>
    if ty.isArray then
      match tree with
      | .array items _ => do
        let values ← arrayItems limits call pending ty.itemType declared.tail items
        paddedArray limits call pending ty.itemType declared values
      | _ => value limits call pending tree
    else converted limits call pending tree ty

/-- The value of an assignment to `current`, brought to its type. -/
def assignedValue (pending : Nat) (ty : DataType) (op : Option Arith) (current tree : Expr) :
    Evaluation Value :=
  match op with
  | none => converted limits call pending tree ty
  | some op => do
    let result ← value limits call pending (.binary (.arith op) current tree none)
    convert limits pending (some (BinaryOp.typeOn (.arith op) current.ty tree.ty)) ty result

end Expressions

/-- A statement and what comes after it, unless the statement returns. -/
def andThen (first : Evaluation Completion) (next : List Value → Evaluation Completion) :
    Evaluation Completion := do
  match ← first with
  | .normal left => next left
  | .returned value => return .returned value

/-- Runs a body as long as a condition holds, for less rounds than there is fuel. -/
def repeatWhile (cond : Nat → Evaluation Bool) (body : List Value → Evaluation Completion) :
    (fuel : Nat) → (left : List Value) → Evaluation Completion
  | 0, _ => exhausted
  | fuel + 1, left => do
    if ← cond left.length then andThen (body left) (repeatWhile cond body fuel)
    else return .normal left

section Statements

variable (limits : Limits) (call : Call) (fuel : Nat)

mutual

/-- Carries out a statement in a call that holds the values left behind by earlier ones. -/
def stmt (left : List Value) : Stmt → Evaluation Completion
  | .declare id ty declared init => do
    store id (← initialValue limits call left.length ty declared init)
    return .normal left
  | .assign id ty op tree => do
    store id (← assignedValue limits call left.length ty op (.var id (some ty)) tree)
    return .normal left
  | .assignElement id ty indices op tree => do
    let path ← exprs limits call left.length indices.reverse
    let value ← assignedValue limits call (left.length + path.length) ty op (.elementOf id indices ty) tree
    storeElement id path.reverse value
    return .normal left
  | .conditional list => branches left list
  | .whileLoop cond body =>
    repeatWhile (fun pending => truth limits call pending cond) (fun left => stmts left body) fuel left
  | .forLoop init cond body =>
    andThen (stmt left init)
      (repeatWhile (fun pending => truth limits call pending cond) (fun left => stmts left body) fuel)
  | .function _ _ _ => return .normal left
  | .ret none => return .returned left.head?
  | .ret (some tree) => do return .returned ((← expr limits call left.length tree).or left.head?)
  | .expr tree => do
    let values := (← expr limits call left.length tree).toList ++ left
    if tree.ty.isSome then
      match values with
      | _ :: rest => return .normal rest
      | [] => fail .stackUnderflow
    else return .normal values

def stmts (left : List Value) : List Stmt → Evaluation Completion
  | [] => return .normal left
  | first :: rest => andThen (stmt left first) fun left => stmts left rest

/-- The body of the first condition that holds, or else the last one. -/
def branches (left : List Value) : Branches → Evaluation Completion
  | .otherwise body => stmts left body
  | .arm cond body rest => do
    if ← truth limits call left.length cond then stmts left body else branches left rest

end

end Statements

/-- The scope of a call. Of two parameters of one name the first one counts. -/
def bindArguments (params : List SymbolId) (arguments : List Value) : Scope :=
  (params.zip arguments).foldr (fun binding scope => scope.insert binding.1 binding.2) .empty

def callBuiltin (limits : Limits) (pending : Nat) : Builtin → List Value → Evaluation (Option Value)
  | .input, [] => some <$> do keep limits pending (.str (← onConsole Console.readLine))
  | .print form, [x] => do
    let text ← attempt (form.text x)
    onConsole (·.write text)
    return none
  | .convert conversion, [x] => some <$> do keep limits pending (← attempt (conversion.apply x))
  | _, _ => undefined

/-- What a call returns is kept by the caller. -/
def handOver (limits : Limits) (pending : Nat) : Option Value → Evaluation (Option Value)
  | some value => some <$> keep limits pending value
  | none => pure none

/-- Calls a built-in function or one that is declared anywhere, with a way to run bodies. -/
def callWith (limits : Limits) (declared : List Declaration) (depth : Nat)
    (run : List Stmt → Evaluation Completion) : Call := fun pending id arguments =>
  if isReserved id then
    match Builtin.ofId? id with
    | some builtin => callBuiltin limits pending builtin arguments
    | none => fail (.unknownFunction id)
  else
    match Declaration.find? declared id with
    | none => fail (.unknownFunction id)
    | some declaration =>
      if limits.calls ≤ depth then fail (.callDepthExceeded limits.calls)
      else if arguments.length = declaration.params.length then do
        let completion ← within (bindArguments declaration.params arguments) (run declaration.body)
        handOver limits pending completion.value
      else undefined

/-- The calls of a program, from within `depth` others. -/
def call (limits : Limits) (declared : List Declaration) : (fuel depth : Nat) → Call
  | 0, depth => callWith limits declared depth fun _ => exhausted
  | fuel + 1, depth =>
    callWith limits declared depth fun body =>
      stmts limits (call limits declared fuel (depth + 1)) fuel [] body

end Meaning

/-- What a run comes to. -/
structure Conclusion where
  result : Except Fault (Option Value)
  globals : Scope
  console : Console
deriving DecidableEq

namespace Outcome

def conclusion? : Outcome Completion → Option Conclusion
  | .done completion state => some ⟨.ok completion.value, state.scopes.globals, state.console⟩
  | .fault cause globals console => some ⟨.error cause, globals, console⟩
  | .undefined | .exhausted => none

end Outcome

/-- Runs a program with fuel for calls and rounds of loops. -/
def Meaning.program (limits : Limits) (statements : List Stmt) (globals : Scope) (console : Console)
    (fuel : Nat) : Outcome Completion :=
  (stmts limits (call limits (Declaration.ofStmts statements) fuel 0) fuel [] statements).run
    ⟨⟨globals, none⟩, console⟩

end StackCode
