import StackCode.Console
import StackCode.Machine.Conversion
import StackCode.Machine.Frame
import StackCode.Program

/-! The machine: an active frame over the frames that wait for it, with the global variables and the
console. A step executes one instruction or leaves a frame at the end of its stream. -/

namespace StackCode

/-- What stays the same during a run. -/
structure Environment where
  functions : FunctionTable
  limits : Limits
deriving DecidableEq

structure Machine where
  frame : Frame
  /-- The frames of the callers, innermost first. -/
  callers : List Frame
  globals : Scope
  console : Console
deriving DecidableEq

/-- How a run ended, and what it left behind. -/
structure Report where
  result : Except RuntimeError (Option Value)
  globals : Scope
  console : Console

inductive Status where
  | running (machine : Machine)
  | finished (report : Report)

namespace Builtin

/-- Calls a built-in function on the operands of a frame. An argument is taken before anything is
printed, and a line is read before room for it is looked for. -/
def perform (limits : Limits) (stack : Stack) (console : Console) :
    Builtin → Except Fault Stack × Console
  | .input =>
    match console.readLine with
    | (.ok line, console) => (stack.push limits (.str line), console)
    | (.error failure, console) => (.error (.console failure), console)
  | .print form =>
    match stack with
    | [] => (.error .stackUnderflow, console)
    | value :: rest =>
      match form.text value with
      | .error fault => (.error fault, console)
      | .ok text =>
        match console.write text with
        | (.ok (), console) => (.ok rest, console)
        | (.error failure, console) => (.error (.console failure), console)
  | .convert conversion =>
    match stack with
    | [] => (.error .stackUnderflow, console)
    | value :: rest =>
      match conversion.apply value with
      | .error fault => (.error fault, console)
      | .ok result => (Stack.push limits result rest, console)

end Builtin

namespace Machine

/-- The machine at the start of a stream. -/
def start (code : Stream) (globals : Scope) (console : Console) : Machine :=
  ⟨.start code none, [], globals, console⟩

/-- Ends the run with an error; the variables are those before the instruction that failed. -/
def fail (machine : Machine) (console : Console) (error : RuntimeError) : Status :=
  .finished ⟨.error error, machine.globals, console⟩

/-- Takes the arguments of a call from the stack, the last one first, into a scope. -/
def bindArguments : (reversedParams : List SymbolId) → Stack → Scope → Except Fault (Scope × Stack)
  | [], stack, scope => .ok (scope, stack)
  | param :: rest, stack, scope => do
    let (value, below) ← stack.pop
    bindArguments rest below (scope.insert param value)

/-- Enters a function of the program: the frame of the callee and that of the caller without the
arguments. -/
def enter (environment : Environment) (depth : Nat) (id : SymbolId) (caller : Frame) :
    Except Fault (Frame × Frame) := do
  match environment.functions.get? id with
  | none => .error (.unknownFunction id)
  | some function =>
    if environment.limits.calls ≤ depth then .error (.callDepthExceeded environment.limits.calls)
    let (locals, rest) ← bindArguments function.params.reverse caller.stack .empty
    .ok (.start function.code (some locals), { caller with stack := rest })

/-- Leaves the active frame. Its value goes to the caller, or is the result of the run. -/
def leave (environment : Environment) (machine : Machine) (value : Option Value) : Status :=
  match machine.callers with
  | [] => .finished ⟨.ok value, machine.globals, machine.console⟩
  | caller :: rest =>
    match value with
    | none => .running { machine with frame := caller, callers := rest }
    | some value =>
      match caller.push environment.limits value with
      | .ok caller => .running { machine with frame := caller, callers := rest }
      | .error fault => machine.fail machine.console (.fault caller.current fault)

/-- Calls a built-in function from the given frame in place of the active one. -/
def performBuiltin (environment : Environment) : Machine → Frame → Builtin → Status
  | ⟨_, callers, globals, console⟩, frame, function =>
    match function.perform environment.limits frame.stack console with
    | (.ok stack, console) => .running ⟨{ frame with stack }, callers, globals, console⟩
    | (.error fault, console) => .finished ⟨.error (.fault frame.current fault), globals, console⟩

/-- Executes an instruction that the active frame has moved on to. -/
def perform (environment : Environment) (machine : Machine) (frame : Frame) (instruction : Instruction) :
    Status :=
  match frame.execute environment.limits machine.globals instruction with
  | .error fault => machine.fail machine.console (.fault frame.current fault)
  | .ok (.proceed frame globals) => .running { machine with frame, globals }
  | .ok (.leave value) => machine.leave environment value
  | .ok (.builtin function frame) => machine.performBuiltin environment frame function
  | .ok (.call id frame) =>
    match enter environment machine.callers.length id frame with
    | .ok (callee, caller) => .running { machine with frame := callee, callers := caller :: machine.callers }
    | .error fault => machine.fail machine.console (.fault frame.current fault)

def step (environment : Environment) (machine : Machine) : Status :=
  if machine.frame.code.size ≤ machine.frame.next then machine.leave environment none
  else
    match machine.frame.code.decodeAt machine.frame.next with
    | .error error => machine.fail machine.console (.malformed error)
    | .ok instruction => machine.perform environment (machine.frame.advance instruction) instruction

/-- Runs at most `count` steps. -/
def run (environment : Environment) : (count : Nat) → Machine → Status
  | 0, machine => .running machine
  | count + 1, machine =>
    match machine.step environment with
    | .running machine => run environment count machine
    | .finished report => .finished report

/-- The run ends with this report. -/
def Ends (environment : Environment) (machine : Machine) (report : Report) : Prop :=
  ∃ count, machine.run environment count = .finished report

end Machine
end StackCode
