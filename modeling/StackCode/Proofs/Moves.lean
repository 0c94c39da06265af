import StackCode.Proofs.Steps

/-! Steps told by the active frame alone. What a frame does next depends on its own stream, stack and
variables, on the globals and on the console, but not on the frames that wait for it; these matter only
where a frame is entered or left. -/

namespace StackCode

/-- What the active frame does next. -/
inductive Move where
  | proceed (frame : Frame) (globals : Scope) (console : Console)
  /-- It calls a function of the program, and stands behind the call already. -/
  | call (id : SymbolId) (frame : Frame)
  | leave (value : Option Value)
  /-- The console is that after the failure, which may have read or written something. -/
  | fail (error : RuntimeError) (console : Console)

namespace Frame

/-- Executes an instruction that the frame has moved on to, built-in functions included. -/
def performed (limits : Limits) (globals : Scope) (console : Console) (frame : Frame)
    (instruction : Instruction) : Move :=
  match frame.execute limits globals instruction with
  | .error fault => .fail (.fault frame.current fault) console
  | .ok (.proceed frame globals) => .proceed frame globals console
  | .ok (.leave value) => .leave value
  | .ok (.call id frame) => .call id frame
  | .ok (.builtin function frame) =>
    match function.perform limits frame.stack console with
    | (.ok stack, console) => .proceed { frame with stack } globals console
    | (.error fault, console) => .fail (.fault frame.current fault) console

def move (limits : Limits) (globals : Scope) (console : Console) (frame : Frame) : Move :=
  if frame.code.size ≤ frame.next then .leave none
  else
    match frame.code.decodeAt frame.next with
    | .error error => .fail (.malformed error) console
    | .ok instruction => (frame.advance instruction).performed limits globals console instruction

end Frame

/-- What a call begins with: the frame of the callee, and the stack of the caller without the arguments.
The last argument lies on top and is bound first. -/
def beginCall (environment : Environment) (depth : Nat) (id : SymbolId) (stack : Stack) :
    Except Fault (Frame × Stack) :=
  match environment.functions.get? id with
  | none => .error (.unknownFunction id)
  | some function =>
    if environment.limits.calls ≤ depth then .error (.callDepthExceeded environment.limits.calls)
    else if stack.length < function.arity then .error .stackUnderflow
    else
      .ok (.start function.code (some (.ofList (function.params.reverse.zip stack))),
        stack.drop function.arity)

/-- The stack of a caller with what a callee returns. -/
def receive (limits : Limits) (value : Option Value) (stack : Stack) : Except Fault Stack :=
  match value with
  | none => .ok stack
  | some value => if stack.length < limits.stack then .ok (value :: stack) else .error .stackOverflow

/-- What becomes of the report on a frame: an error ends the run, a value goes to the caller. -/
def Report.deliver (environment : Environment) (report : Report) : List Frame → Status
  | [] => .finished report
  | caller :: rest =>
    match report.result with
    | .error _ => .finished report
    | .ok value =>
      match receive environment.limits value caller.stack with
      | .ok stack => .running ⟨{ caller with stack }, rest, report.globals, report.console⟩
      | .error fault => .finished ⟨.error (.fault caller.current fault), report.globals, report.console⟩

theorem Report.deliver_error (environment : Environment) (error : RuntimeError) (globals : Scope)
    (console : Console) (callers : List Frame) :
    deliver environment ⟨.error error, globals, console⟩ callers =
      .finished ⟨.error error, globals, console⟩ := by
  cases callers <;> rfl

namespace Machine

variable {environment : Environment} {machine : Machine}

theorem bindArguments_eq (params : List SymbolId) (stack : Stack) (scope : Scope) :
    bindArguments params stack scope =
      if stack.length < params.length then .error .stackUnderflow
      else .ok ((params.zip stack).foldl (fun scope binding => scope.insert binding.1 binding.2) scope,
        stack.drop params.length) := by
  induction params generalizing stack scope with
  | nil => rfl
  | cons param rest ih =>
      cases stack with
      | nil => simp [bindArguments, Stack.pop, bind, Except.bind]
      | cons value below =>
          change bindArguments rest below (scope.insert param value) = _
          rw [ih]
          simp

/-- The arguments lie on the stack last one first, and are bound in that order. -/
theorem zip_reverse_append {params : List SymbolId} {arguments : List Value} (below : Stack)
    (hlength : arguments.length = params.length) :
    params.reverse.zip (arguments.reverse ++ below) = (params.zip arguments).reverse := by
  have hreverse : params.reverse.length = arguments.reverse.length := by
    rw [List.length_reverse, List.length_reverse, hlength]
  calc params.reverse.zip (arguments.reverse ++ below)
      = (params.reverse ++ []).zip (arguments.reverse ++ below) := by rw [List.append_nil]
    _ = params.reverse.zip arguments.reverse ++ [].zip below := List.zip_append hreverse
    _ = params.reverse.zip arguments.reverse := by rw [List.zip_nil_left, List.append_nil]
    _ = (params.zip arguments).reverse := (List.reverse_zipWith hlength.symm).symm

/-- Of the caller's frame only the stack matters for a call, and only it changes. -/
theorem enter_eq_beginCall (depth : Nat) (id : SymbolId) (caller : Frame) :
    enter environment depth id caller =
      (beginCall environment depth id caller.stack).map fun begun =>
        (begun.1, { caller with stack := begun.2 }) := by
  unfold enter beginCall
  cases environment.functions.get? id with
  | none => rfl
  | some function =>
      by_cases hdepth : environment.limits.calls ≤ depth
      · simp only [if_pos hdepth]
        rfl
      · simp only [if_neg hdepth]
        rw [bindArguments_eq, List.length_reverse, Function.arity]
        by_cases harity : caller.stack.length < function.params.length
        · rw [if_pos harity, if_pos harity]
          rfl
        · rw [if_neg harity, if_neg harity]
          rfl

theorem leave_eq_deliver (machine : Machine) (value : Option Value) :
    machine.leave environment value =
      Report.deliver environment ⟨.ok value, machine.globals, machine.console⟩ machine.callers := by
  obtain ⟨frame, callers, globals, console⟩ := machine
  cases callers with
  | nil => rfl
  | cons caller rest =>
      cases value with
      | none => rfl
      | some value =>
          simp only [leave, Report.deliver, receive, Frame.push, Stack.push]
          by_cases hroom : caller.stack.length < environment.limits.stack
          · simp only [if_pos hroom]
            rfl
          · simp only [if_neg hroom]
            rfl

/-- A step is a move of the active frame, and only calls and returns look at the other frames. -/
theorem step_eq_move (machine : Machine) :
    machine.step environment =
      match machine.frame.move environment.limits machine.globals machine.console with
      | .proceed frame globals console => .running ⟨frame, machine.callers, globals, console⟩
      | .call id frame =>
        match beginCall environment machine.callers.length id frame.stack with
        | .ok (callee, stack) =>
          .running ⟨callee, { frame with stack } :: machine.callers, machine.globals, machine.console⟩
        | .error fault => .finished ⟨.error (.fault frame.current fault), machine.globals, machine.console⟩
      | .leave value =>
        Report.deliver environment ⟨.ok value, machine.globals, machine.console⟩ machine.callers
      | .fail error console => .finished ⟨.error error, machine.globals, console⟩ := by
  obtain ⟨frame, callers, globals, console⟩ := machine
  unfold step Frame.move
  by_cases hend : frame.code.size ≤ frame.next
  · simp only [if_pos hend, leave_eq_deliver]
  · simp only [if_neg hend]
    cases frame.code.decodeAt frame.next with
    | error error => rfl
    | ok instruction =>
        simp only [perform, Frame.performed]
        rcases (frame.advance instruction).execute environment.limits globals instruction with
          fault | ⟨next, globals⟩ | ⟨function, next⟩ | ⟨id, next⟩ | value
        · rfl
        · rfl
        · simp only [performBuiltin]
          rcases function.perform environment.limits next.stack console with ⟨fault | stack, after⟩ <;> rfl
        · simp only [enter_eq_beginCall]
          rcases beginCall environment callers.length id next.stack with fault | ⟨callee, stack⟩ <;> rfl
        · exact leave_eq_deliver _ value

section Steps

variable {frame caller callee : Frame} {callers : List Frame} {globals after : Scope}
  {console written : Console}

theorem step_of_proceed {next : Frame}
    (hmove : frame.move environment.limits globals console = .proceed next after written) :
    step environment ⟨frame, callers, globals, console⟩ = .running ⟨next, callers, after, written⟩ := by
  rw [step_eq_move]
  simp only [hmove]

theorem step_of_leave {value : Option Value}
    (hmove : frame.move environment.limits globals console = .leave value) :
    step environment ⟨frame, callers, globals, console⟩ =
      Report.deliver environment ⟨.ok value, globals, console⟩ callers := by
  rw [step_eq_move]
  simp only [hmove]

theorem step_of_fail {error : RuntimeError}
    (hmove : frame.move environment.limits globals console = .fail error written) :
    step environment ⟨frame, callers, globals, console⟩ = .finished ⟨.error error, globals, written⟩ := by
  rw [step_eq_move]
  simp only [hmove]

theorem step_of_refused {id : SymbolId} {fault : Fault}
    (hmove : frame.move environment.limits globals console = .call id caller)
    (hbegin : beginCall environment callers.length id caller.stack = .error fault) :
    step environment ⟨frame, callers, globals, console⟩ =
      .finished ⟨.error (.fault caller.current fault), globals, console⟩ := by
  rw [step_eq_move]
  simp only [hmove, hbegin]

theorem step_of_call {id : SymbolId} {stack : Stack}
    (hmove : frame.move environment.limits globals console = .call id caller)
    (hbegin : beginCall environment callers.length id caller.stack = .ok (callee, stack)) :
    step environment ⟨frame, callers, globals, console⟩ =
      .running ⟨callee, { caller with stack } :: callers, globals, console⟩ := by
  rw [step_eq_move]
  simp only [hmove, hbegin]

end Steps

end Machine
end StackCode
