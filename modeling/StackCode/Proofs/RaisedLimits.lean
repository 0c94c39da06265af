import StackCode.Proofs.Moves

/-! Limits only stop runs. They are looked at where a value is put on a stack, where a call begins and where a
filled array is allocated, and each look lets the run go on unchanged or ends it with a fault of its own. So a
run that no limit stopped takes the same steps under higher limits. -/

namespace StackCode

/-- The faults of runs that a limit stops. -/
def Fault.isLimit : Fault → Bool
  | .stackOverflow | .callDepthExceeded _ | .arrayTooLarge _ => true
  | _ => false

/-- The run was stopped by a limit. -/
def Report.HitsLimit (report : Report) : Prop :=
  ∃ offset cause, report.result = .error (.fault offset cause) ∧ cause.isLimit = true

/-- No limit is higher than that of the others. -/
structure Limits.AtMost (limits higher : Limits) : Prop where
  stack : limits.stack ≤ higher.stack
  calls : limits.calls ≤ higher.calls
  array : limits.array ≤ higher.array

/-- A limit stops the first computation, or the second does the same. -/
def StoppedOrSame {α : Type} (first second : Except Fault α) : Prop :=
  (∃ cause, first = .error cause ∧ cause.isLimit = true) ∨ second = first

namespace StoppedOrSame

variable {α β : Type}

theorem refl (computation : Except Fault α) : StoppedOrSame computation computation := Or.inr rfl

theorem bind {first second : Except Fault α} {next other : α → Except Fault β}
    (hfirst : StoppedOrSame first second) (hnext : ∀ value, StoppedOrSame (next value) (other value)) :
    StoppedOrSame (first >>= next) (second >>= other) := by
  rcases hfirst with ⟨cause, rfl, hcause⟩ | rfl
  · exact Or.inl ⟨cause, rfl, hcause⟩
  · cases second with
    | error cause => exact Or.inr rfl
    | ok value => exact hnext value

/-- What comes first does not look at the limits. -/
theorem after {first : Except Fault α} {next other : α → Except Fault β}
    (hnext : ∀ value, StoppedOrSame (next value) (other value)) :
    StoppedOrSame (first >>= next) (first >>= other) :=
  (refl first).bind hnext

end StoppedOrSame

variable {limits higher : Limits}

theorem Stack.push_stoppedOrSame (hlimits : limits.AtMost higher) (value : Value) (stack : Stack) :
    StoppedOrSame (stack.push limits value) (stack.push higher value) := by
  unfold push
  by_cases hroom : stack.length < limits.stack
  · have hhigher : stack.length < higher.stack := by
      have := hlimits.stack
      omega
    rw [if_pos hroom, if_pos hhigher]
    exact StoppedOrSame.refl _
  · rw [if_neg hroom]
    exact Or.inl ⟨_, rfl, rfl⟩

theorem checkShape_stoppedOrSame {low high : Nat} (hle : low ≤ high) (count : Nat) (shape : List Nat) :
    StoppedOrSame (checkShape low count shape) (checkShape high count shape) := by
  induction shape generalizing count with
  | nil => exact StoppedOrSame.refl _
  | cons size rest ih =>
      unfold checkShape
      by_cases hfits : count * size ≤ low
      · rw [if_pos hfits, if_pos (hfits.trans hle)]
        exact ih (count * size)
      · rw [if_neg hfits]
        exact Or.inl ⟨_, rfl, rfl⟩

namespace Frame

theorem pushOn_stoppedOrSame (hlimits : limits.AtMost higher) (frame : Frame) (rest : Stack) (value : Value) :
    StoppedOrSame (frame.pushOn limits rest value) (frame.pushOn higher rest value) :=
  (Stack.push_stoppedOrSame hlimits value rest).bind fun _ => StoppedOrSame.refl _

theorem execute_stoppedOrSame (hlimits : limits.AtMost higher) (globals : Scope) (frame : Frame)
    (instruction : Instruction) :
    StoppedOrSame (frame.execute limits globals instruction) (frame.execute higher globals instruction) := by
  have hpush : ∀ rest value, StoppedOrSame
      (frame.pushOn limits rest value >>= fun frame => Except.ok (Action.proceed frame globals))
      (frame.pushOn higher rest value >>= fun frame => Except.ok (Action.proceed frame globals)) := by
    intro rest value
    exact (frame.pushOn_stoppedOrSame hlimits rest value).bind fun _ => StoppedOrSame.refl _
  obtain ⟨opcode, operand⟩ := instruction
  cases opcode with
  | pushInt | pushUInt | pushSingle | pushDouble => exact StoppedOrSame.after (hpush frame.stack)
  | operate operation => exact StoppedOrSame.after fun result => hpush result.2 result.1
  | load => exact StoppedOrSame.after fun _ => StoppedOrSame.after (hpush frame.stack)
  | loadElement =>
      refine StoppedOrSame.after fun _ => StoppedOrSame.after fun path => ?_
      exact StoppedOrSame.after fun _ => StoppedOrSame.after (hpush path.2)
  | allocString =>
      refine StoppedOrSame.after fun _ => StoppedOrSame.after fun codes => ?_
      exact StoppedOrSame.after fun _ => hpush codes.2 _
  | allocArray => exact StoppedOrSame.after fun _ => StoppedOrSame.after fun items => hpush items.2 _
  | allocFilled =>
      refine StoppedOrSame.after fun _ => StoppedOrSame.after fun sizes => StoppedOrSame.after fun shape => ?_
      exact (checkShape_stoppedOrSame hlimits.array 1 shape).bind fun _ => hpush sizes.2 _
  -- the other instructions put nothing on the stack
  | store | storeElement | jump | jumpBackward | jumpIfFalse | call | ret | pop => exact StoppedOrSame.refl _

end Frame

/-- What a built-in function reads and writes does not depend on the limits. -/
theorem Builtin.perform_stoppedOrSame (hlimits : limits.AtMost higher) (stack : Stack) (console : Console)
    (function : Builtin) :
    StoppedOrSame (function.perform limits stack console).1 (function.perform higher stack console).1 ∧
      (function.perform higher stack console).2 = (function.perform limits stack console).2 := by
  cases function with
  | input =>
      simp only [perform]
      split
      · exact ⟨Stack.push_stoppedOrSame hlimits _ stack, rfl⟩
      · exact ⟨StoppedOrSame.refl _, rfl⟩
  | print form => exact ⟨StoppedOrSame.refl _, rfl⟩
  | convert conversion =>
      cases stack with
      | nil => exact ⟨StoppedOrSame.refl _, rfl⟩
      | cons value rest =>
          simp only [perform]
          split
          · exact ⟨StoppedOrSame.refl _, rfl⟩
          · exact ⟨Stack.push_stoppedOrSame hlimits _ rest, rfl⟩

/-- The move ends the run at a limit. -/
def Move.HitsLimit : Move → Prop
  | .fail (.fault _ cause) _ => cause.isLimit = true
  | _ => False

namespace Frame

theorem performed_stoppedOrSame (hlimits : limits.AtMost higher) (globals : Scope) (console : Console)
    (frame : Frame) (instruction : Instruction) :
    (frame.performed limits globals console instruction).HitsLimit ∨
      frame.performed higher globals console instruction = frame.performed limits globals console instruction := by
  unfold performed
  rcases frame.execute_stoppedOrSame hlimits globals instruction with ⟨cause, hexecute, hcause⟩ | hexecute
  · rw [hexecute]
    exact Or.inl hcause
  rw [hexecute]
  rcases frame.execute limits globals instruction with
    fault | ⟨next, after⟩ | ⟨function, next⟩ | ⟨id, next⟩ | value
  · exact Or.inr rfl
  · exact Or.inr rfl
  · obtain ⟨hresult, hconsole⟩ := function.perform_stoppedOrSame hlimits next.stack console
    rcases hlow : function.perform limits next.stack console with ⟨result, written⟩
    rcases hhigh : function.perform higher next.stack console with ⟨otherResult, otherWritten⟩
    simp only [hlow, hhigh] at hresult hconsole ⊢
    subst hconsole
    rcases hresult with ⟨cause, rfl, hcause⟩ | rfl
    · exact Or.inl hcause
    · exact Or.inr rfl
  · exact Or.inr rfl
  · exact Or.inr rfl

theorem move_stoppedOrSame (hlimits : limits.AtMost higher) (globals : Scope) (console : Console)
    (frame : Frame) :
    (frame.move limits globals console).HitsLimit ∨
      frame.move higher globals console = frame.move limits globals console := by
  unfold move
  split
  · exact Or.inr rfl
  · split
    · exact Or.inr rfl
    · exact performed_stoppedOrSame hlimits globals console _ _

end Frame

theorem beginCall_stoppedOrSame (hlimits : limits.AtMost higher) (functions : FunctionTable) (depth : Nat)
    (id : SymbolId) (stack : Stack) :
    StoppedOrSame (beginCall ⟨functions, limits⟩ depth id stack) (beginCall ⟨functions, higher⟩ depth id stack) := by
  unfold beginCall
  simp only
  split
  · exact StoppedOrSame.refl _
  · by_cases hdeep : limits.calls ≤ depth
    · rw [if_pos hdeep]
      exact Or.inl ⟨_, rfl, rfl⟩
    · have hhigher : ¬ higher.calls ≤ depth := by
        have := hlimits.calls
        omega
      rw [if_neg hdeep, if_neg hhigher]
      exact StoppedOrSame.refl _

theorem receive_stoppedOrSame (hlimits : limits.AtMost higher) (value : Option Value) (stack : Stack) :
    StoppedOrSame (receive limits value stack) (receive higher value stack) := by
  cases value with
  | none => exact StoppedOrSame.refl _
  | some value => exact Stack.push_stoppedOrSame hlimits value stack

/-- A limit ends the run of the first status, or the second is the same. -/
def Status.StoppedOrSame (first second : Status) : Prop :=
  (∃ report, first = .finished report ∧ report.HitsLimit) ∨ second = first

theorem Report.deliver_stoppedOrSame (hlimits : limits.AtMost higher) (functions : FunctionTable)
    (report : Report) (callers : List Frame) :
    Status.StoppedOrSame (report.deliver ⟨functions, limits⟩ callers)
      (report.deliver ⟨functions, higher⟩ callers) := by
  obtain ⟨result, globals, console⟩ := report
  cases callers with
  | nil => exact Or.inr rfl
  | cons caller rest =>
      cases result with
      | error error => exact Or.inr rfl
      | ok value =>
          simp only [deliver]
          rcases receive_stoppedOrSame hlimits value caller.stack with ⟨cause, hreceive, hcause⟩ | hreceive
          · rw [hreceive]
            exact Or.inl ⟨_, rfl, _, _, rfl, hcause⟩
          · rw [hreceive]
            exact Or.inr rfl

namespace Machine

theorem step_stoppedOrSame (hlimits : limits.AtMost higher) (functions : FunctionTable) (machine : Machine) :
    Status.StoppedOrSame (machine.step ⟨functions, limits⟩) (machine.step ⟨functions, higher⟩) := by
  rw [step_eq_move, step_eq_move]
  simp only
  rcases machine.frame.move_stoppedOrSame hlimits machine.globals machine.console with hstopped | hsame
  · cases hmove : machine.frame.move limits machine.globals machine.console with
    | fail error console =>
        rw [hmove] at hstopped
        cases error with
        | fault offset cause => exact Or.inl ⟨_, rfl, _, _, rfl, hstopped⟩
        | malformed error => cases hstopped
    | proceed | call | leave =>
        rw [hmove] at hstopped
        cases hstopped
  rw [hsame]
  cases machine.frame.move limits machine.globals machine.console with
  | proceed frame globals console => exact Or.inr rfl
  | fail error console => exact Or.inr rfl
  | leave value => exact Report.deliver_stoppedOrSame hlimits functions _ machine.callers
  | call id frame =>
      simp only
      rcases beginCall_stoppedOrSame hlimits functions machine.callers.length id frame.stack with
        ⟨cause, hbegin, hcause⟩ | hbegin
      · rw [hbegin]
        exact Or.inl ⟨_, rfl, _, _, rfl, hcause⟩
      · rw [hbegin]
        exact Or.inr rfl

/-- A run that no limit stops takes the same steps under higher limits. -/
theorem run_of_higher (hlimits : limits.AtMost higher) (functions : FunctionTable) {count : Nat}
    {machine : Machine} {report : Report} (hrun : machine.run ⟨functions, limits⟩ count = .finished report)
    (hreport : ¬ report.HitsLimit) : machine.run ⟨functions, higher⟩ count = .finished report := by
  induction count generalizing machine with
  | zero => cases hrun
  | succ count ih =>
      rw [run_succ] at hrun ⊢
      rcases step_stoppedOrSame hlimits functions machine with ⟨stopped, hstep, hstopped⟩ | hstep
      · rw [hstep] at hrun
        cases hrun
        exact absurd hstopped hreport
      · rw [hstep]
        cases hstatus : machine.step ⟨functions, limits⟩ with
        | running next =>
            rw [hstatus] at hrun
            exact ih hrun
        | finished last =>
            rw [hstatus] at hrun
            exact hrun

end Machine

/-- If no limit stops a run, then it ends under higher limits with the same report: the same value or error,
the same globals, unread input and output. -/
theorem ends_of_higher_limits (program : Program) (globals : Scope) (console : Console)
    (hstack : limits.stack ≤ higher.stack) (hcalls : limits.calls ≤ higher.calls)
    (harray : limits.array ≤ higher.array) {report : Report}
    (hends : (Machine.start program.main globals console).Ends ⟨program.functions, limits⟩ report)
    (hreport : ∀ offset cause, report.result = .error (.fault offset cause) →
      cause ≠ .stackOverflow ∧ (∀ limit, cause ≠ .callDepthExceeded limit) ∧ ∀ limit, cause ≠ .arrayTooLarge limit) :
    (Machine.start program.main globals console).Ends ⟨program.functions, higher⟩ report := by
  obtain ⟨count, hrun⟩ := hends
  refine ⟨count, Machine.run_of_higher ⟨hstack, hcalls, harray⟩ program.functions hrun ?_⟩
  rintro ⟨offset, cause, hresult, hlimit⟩
  obtain ⟨hoverflow, hdepth, hlarge⟩ := hreport offset cause hresult
  cases cause with
  | stackOverflow => exact hoverflow rfl
  | callDepthExceeded limit => exact hdepth limit rfl
  | arrayTooLarge limit => exact hlarge limit rfl
  | _ => cases hlimit

/-- Allocates an array of three and calls a function that adds its argument to itself. -/
def fillsAndDoubles : Program where
  main := .ofInstructions
    [.pushInt 3, .allocFilled 1 .int, .store 80, .pushInt 5, .call 64, .plain .ret]
  functions := .ofList
    [(64, ⟨[70], .ofInstructions [.load 70, .load 70, .operate (.intArith .add), .plain .ret]⟩)]

/-- The lower limits are just enough. -/
theorem ends_of_higher_limits_fillsAndDoubles :
    (Machine.start fillsAndDoubles.main .empty ⟨[7], #[], none⟩).Ends ⟨fillsAndDoubles.functions, ⟨2, 1, 3⟩⟩
      ⟨.ok (some (.int 10)), .ofList [(80, .array [.int 0, .int 0, .int 0])], ⟨[7], #[], none⟩⟩ ∧
    (Machine.start fillsAndDoubles.main .empty ⟨[7], #[], none⟩).Ends ⟨fillsAndDoubles.functions, .default⟩
      ⟨.ok (some (.int 10)), .ofList [(80, .array [.int 0, .int 0, .int 0])], ⟨[7], #[], none⟩⟩ := by
  have hends : (Machine.start fillsAndDoubles.main .empty ⟨[7], #[], none⟩).Ends
      ⟨fillsAndDoubles.functions, ⟨2, 1, 3⟩⟩
      ⟨.ok (some (.int 10)), .ofList [(80, .array [.int 0, .int 0, .int 0])], ⟨[7], #[], none⟩⟩ :=
    ⟨10, by decide +kernel⟩
  refine ⟨hends, ends_of_higher_limits _ _ _ (by decide) (by decide) (by decide) hends ?_⟩
  intro offset cause hresult
  cases hresult

end StackCode
