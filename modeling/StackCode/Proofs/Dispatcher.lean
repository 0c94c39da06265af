import StackCode.Proofs.NestedCalls

/-! The machine as a program that works in place. A dispatcher keeps its streams in execution on one stack and the
variables of its calls on another, and an instruction that fails leaves behind whatever it has done so far. That
the two stacks keep step and that a failure spares the variables is not built in; both follow from the comparison
with the machine, whose frames carry their variables. -/

namespace StackCode

namespace Value

/-- Overwrites the value under a path where it lies: how that went, and what the base is afterwards. -/
def overwrite : Value → List Value → Value → Except Fault Unit × Value
  | _, [], value => (.ok (), value)
  | .array items, index :: rest, value =>
    match index.position items.length with
    | .error fault => (.error fault, .array items)
    | .ok position =>
      let result := overwrite (items.get position) rest value
      (result.1, .array (items.set position result.2))
  | .str text, [index], value =>
    match index.position text.toList.length with
    | .error fault => (.error fault, .str text)
    | .ok position =>
      match value.toChar with
      | .ok c => (.ok (), .str (String.ofList (text.toList.set position c)))
      | .error fault => (.error fault, .str text)
  | base, _ :: _, _ => (.error (.mismatch .storeElement base), base)

/-- A failure leaves the base as it was. -/
theorem overwrite_eq_write (base : Value) (path : List Value) (value : Value) :
    base.overwrite path value =
      match base.write path value with
      | .ok updated => (.ok (), updated)
      | .error fault => (.error fault, base) := by
  induction path generalizing base with
  | nil =>
      rw [overwrite, write]
  | cons index rest ih =>
      cases base with
      | int | uint | float => rw [overwrite, write] <;> simp
      | array items =>
          rw [overwrite, write]
          rcases index.position items.length with fault | position
          · rfl
          · simp only [ih (items.get position)]
            rw [show items[position] = items.get position from rfl]
            rcases (items.get position).write rest value with fault | item
            · simp only
              rw [show items.set position (items.get position) = items from List.set_getElem_self position.isLt]
            · rfl
      | str text =>
          cases rest with
          | nil =>
              rw [overwrite, write]
              rcases index.position text.toList.length with fault | position
              · rfl
              · rcases value.toChar with fault | c <;> rfl
          | cons => rw [overwrite, write] <;> simp

end Value

/-- A stream in execution, without the variables of its call. -/
structure Strand where
  code : Stream
  stack : Stack
  /-- The offset of the next instruction. -/
  next : Nat
  /-- The offset of the instruction dispatched last. -/
  current : Nat
deriving DecidableEq

namespace Strand

def start (code : Stream) : Strand := ⟨code, [], 0, 0⟩

def advance (strand : Strand) (instruction : Instruction) : Strand :=
  { strand with current := strand.next, next := strand.next + instruction.length }

end Strand

/-- What an instruction works on. -/
structure Bench where
  strand : Strand
  scopes : Scopes
  console : Console

/-- Work in place: a failure keeps what was done before it. -/
abbrev Work := EStateM Fault Bench

/-- What the dispatcher is to do after an instruction. -/
inductive Request where
  | goOn
  | call (id : SymbolId)
  | leave (value : Option Value)

namespace Bench

def attempt {α : Type} (computation : Except Fault α) : Work α := fun bench =>
  match computation with
  | .ok value => .ok value bench
  | .error fault => .error fault bench

/-- The bench with other operands. -/
def on (bench : Bench) (stack : Stack) : Bench := { bench with strand := { bench.strand with stack } }

/-- Works on operands only, which stay if that fails. -/
def take {α : Type} (operands : Stack → Except Fault (α × Stack)) : Work α := fun bench =>
  match operands bench.strand.stack with
  | .ok (value, rest) => .ok value (bench.on rest)
  | .error fault => .error fault bench

def push (limits : Limits) (value : Value) : Work Unit := fun bench =>
  match bench.strand.stack.push limits value with
  | .ok stack => .ok () (bench.on stack)
  | .error fault => .error fault bench

def load (id : SymbolId) : Work Value := fun bench => attempt (Frame.require id (bench.scopes.load id)) bench

def store (id : SymbolId) (value : Value) : Work Unit := fun bench =>
  .ok () { bench with scopes := bench.scopes.store id value }

/-- Overwrites an element of a variable, which takes what the overwriting leaves even if it fails. -/
def overwrite (id : SymbolId) (path : List Value) (value : Value) : Work Unit := fun bench =>
  match bench.scopes.load id with
  | none => .error (.undefinedVariable id) bench
  | some base =>
    let (outcome, left) := base.overwrite path value
    attempt outcome { bench with scopes := bench.scopes.replace id left }

def jumpTo (target : Nat) : Work Unit := fun bench =>
  .ok () { bench with strand := { bench.strand with next := target } }

def forward (distance : UInt64) : Work Unit := fun bench =>
  if bench.strand.next + distance.toNat ≤ bench.strand.code.size then
    jumpTo (bench.strand.next + distance.toNat) bench
  else .error .jumpOutOfBounds bench

def backward (distance : UInt64) : Work Unit := fun bench =>
  if distance.toNat ≤ bench.strand.next then jumpTo (bench.strand.next - distance.toNat) bench
  else .error .jumpOutOfBounds bench

def readLine : Work String := fun bench =>
  match bench.console.readLine with
  | (.ok line, console) => .ok line { bench with console }
  | (.error failure, console) => .error (.console failure) { bench with console }

def print (text : String) : Work Unit := fun bench =>
  match bench.console.write text with
  | (.ok (), console) => .ok () { bench with console }
  | (.error failure, console) => .error (.console failure) { bench with console }

def callBuiltin (limits : Limits) : Builtin → Work Unit
  | .input => do
    let line ← readLine
    push limits (.str line)
  | .print form => do
    let value ← take Stack.pop
    let text ← attempt (form.text value)
    print text
  | .convert conversion => do
    let value ← take Stack.pop
    let result ← attempt (conversion.apply value)
    push limits result

/-- Executes an instruction that the strand has moved on to. -/
def instruct (limits : Limits) (instruction : Instruction) : Work Request :=
  match instruction.opcode with
  | .pushInt _ | .pushUInt _ | .pushSingle | .pushDouble => do
    let value ← attempt instruction.requireLiteral
    push limits value
    return .goOn
  | .operate operation => do
    let result ← take operation.apply
    push limits result
    return .goOn
  | .load => do
    let id ← attempt instruction.requireWord
    let value ← load id
    push limits value
    return .goOn
  | .store => do
    let id ← attempt instruction.requireWord
    let value ← take Stack.pop
    store id value
    return .goOn
  | .loadElement => do
    let (id, depth) ← attempt instruction.requireElement
    let path ← take (Stack.popPath depth.toNat)
    let base ← load id
    let value ← attempt (base.read path)
    push limits value
    return .goOn
  | .storeElement => do
    let (id, depth) ← attempt instruction.requireElement
    let value ← take Stack.pop
    let path ← take (Stack.popPath depth.toNat)
    overwrite id path value
    return .goOn
  | .allocString => do
    let count ← attempt instruction.requireWord
    let codes ← take (Stack.popMany count.toNat)
    let chars ← attempt (Frame.joinChars codes)
    push limits (.str (String.ofList chars))
    return .goOn
  | .allocArray => do
    let count ← attempt instruction.requireWord
    let items ← take (Stack.popMany count.toNat)
    push limits (.array items)
    return .goOn
  | .allocFilled => do
    let (dims, leaf) ← attempt instruction.requireFill
    let sizes ← take (Stack.popMany dims.toNat)
    let shape ← attempt (Frame.toSizes sizes)
    attempt (checkShape limits.array 1 shape)
    push limits (.filled leaf shape)
    return .goOn
  | .jump => do
    let distance ← attempt instruction.requireWord
    forward distance
    return .goOn
  | .jumpBackward => do
    let distance ← attempt instruction.requireWord
    backward distance
    return .goOn
  | .jumpIfFalse => do
    let distance ← attempt instruction.requireWord
    let cond ← take Stack.pop
    match cond.truth? with
    | some true => return .goOn
    | some false => do
      forward distance
      return .goOn
    | none => throw (.mismatch .jumpIfFalse cond)
  | .call => do
    let id ← attempt instruction.requireWord
    if isReserved id then
      match Builtin.ofId? id with
      | some function => do
        callBuiltin limits function
        return .goOn
      | none => throw (.unknownFunction id)
    else return .call id
  | .ret => fun bench => .ok (.leave bench.strand.stack.head?) (bench.on bench.strand.stack.tail)
  | .pop => do
    let _ ← take Stack.pop
    return .goOn

/-- Takes the arguments of a call, the last one first, into a scope. -/
def bindArguments : (reversedParams : List SymbolId) → Scope → Work Scope
  | [], scope => return scope
  | param :: rest, scope => do
    let value ← take Stack.pop
    bindArguments rest (scope.insert param value)

/-- Begins the call of a function: its stream and its variables. -/
def enter (environment : Environment) (depth : Nat) (id : SymbolId) : Work (Stream × Scope) :=
  match environment.functions.get? id with
  | none => throw (.unknownFunction id)
  | some function =>
    if environment.limits.calls ≤ depth then throw (.callDepthExceeded environment.limits.calls)
    else do
      let locals ← bindArguments function.params.reverse .empty
      return (function.code, locals)

end Bench

/-- Streams in execution and the variables of calls, each innermost first. -/
structure Dispatcher where
  strands : List Strand
  scopes : List Scope
  globals : Scope
  console : Console
deriving DecidableEq

namespace Dispatcher

inductive Outcome where
  | going (state : Dispatcher)
  | returned (value : Option Value) (left : Dispatcher)
  | failed (error : RuntimeError) (left : Dispatcher)
deriving DecidableEq

def start (code : Stream) (globals : Scope) (console : Console) : Dispatcher :=
  ⟨[.start code], [], globals, console⟩

/-- The dispatcher with the bench on top of other strands and of the variables of other calls. -/
def resume (bench : Bench) (below : List Strand) (outer : List Scope) : Dispatcher :=
  ⟨bench.strand :: below, bench.scopes.locals.toList ++ outer, bench.scopes.globals, bench.console⟩

/-- Leaves the strand on top. There is no caller if no call has variables. -/
def leave (limits : Limits) (depth : Nat) (value : Option Value) (state : Dispatcher) : Outcome :=
  let left := { state with strands := state.strands.tail }
  if depth = 0 then .returned value left
  else
    let left := { left with scopes := left.scopes.tail }
    match left.strands, value with
    | caller :: below, some value =>
      match caller.stack.push limits value with
      | .ok stack => .going { left with strands := { caller with stack } :: below }
      | .error fault => .failed (.fault caller.current fault) left
    | _, _ => .going left

/-- Dispatches the instruction that a strand stands at. -/
def dispatch (limits : Limits) (bench : Bench) : Except RuntimeError Request × Bench :=
  if bench.strand.next < bench.strand.code.size then
    match bench.strand.code.decodeAt bench.strand.next with
    | .error error => (.error (.malformed error), bench)
    | .ok instruction =>
      match Bench.instruct limits instruction { bench with strand := bench.strand.advance instruction } with
      | .ok request bench => (.ok request, bench)
      | .error fault bench => (.error (.fault bench.strand.current fault), bench)
  else (.ok (.leave none), bench)

def step (environment : Environment) (state : Dispatcher) : Outcome :=
  match state.strands with
  | [] => .returned none state
  | strand :: below =>
    match dispatch environment.limits ⟨strand, ⟨state.globals, state.scopes.head?⟩, state.console⟩ with
    | (.error error, bench) => .failed error (resume bench below state.scopes.tail)
    | (.ok .goOn, bench) => .going (resume bench below state.scopes.tail)
    | (.ok (.leave value), bench) =>
      (resume bench below state.scopes.tail).leave environment.limits state.scopes.length value
    | (.ok (.call id), bench) =>
      match Bench.enter environment state.scopes.length id bench with
      | .error fault bench => .failed (.fault bench.strand.current fault) (resume bench below state.scopes.tail)
      | .ok (code, locals) bench =>
        let caller := resume bench below state.scopes.tail
        .going { caller with strands := .start code :: caller.strands, scopes := locals :: caller.scopes }

/-- Runs at most `count` steps. -/
def run (environment : Environment) : (count : Nat) → Dispatcher → Outcome
  | 0, state => .going state
  | count + 1, state =>
    match state.step environment with
    | .going next => run environment count next
    | .returned value left => .returned value left
    | .failed error left => .failed error left

end Dispatcher
end StackCode
