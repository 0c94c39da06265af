import StackCode.Proofs.CallIsolation

/-! What a step can do, said once for all invariants: the active frame goes on within its stream, a function of
the program is entered, or a frame is left for its caller. -/

namespace StackCode

theorem lt_calls_of_beginCall {environment : Environment} {depth : Nat} {id : SymbolId} {stack : Stack}
    {begun : Frame × Stack} (hbegin : beginCall environment depth id stack = .ok begun) :
    depth < environment.limits.calls := by
  unfold beginCall at hbegin
  split at hbegin
  · cases hbegin
  · split at hbegin
    · cases hbegin
    · omega

namespace Machine

/-- What a step that does not end the run can do. -/
inductive Transition (environment : Environment) (machine : Machine) : Machine → Prop where
  /-- The active frame goes on. -/
  | goesOn {instruction : Instruction} {frame : Frame} {globals : Scope} {console : Console}
      (hdecode : machine.frame.code.decodeAt machine.frame.next = .ok instruction)
      (hadvances : (machine.frame.advance instruction).Advances environment.limits machine.globals frame globals) :
      Transition environment machine ⟨frame, machine.callers, globals, console⟩
  /-- A function is entered with arguments from the stack, the last one on top. -/
  | enters {id : SymbolId} {function : Function} {arguments : List Value} {below : Stack}
      (hdecode : machine.frame.code.decodeAt machine.frame.next = .ok (.call id))
      (hreserved : isReserved id = false)
      (hfunction : environment.functions.get? id = some function)
      (hdepth : machine.callers.length < environment.limits.calls)
      (harity : arguments.length = function.arity)
      (hstack : machine.frame.stack = arguments.reverse ++ below) :
      Transition environment machine
        ⟨.start function.code (some (.ofList (function.params.zip arguments).reverse)),
          machine.frame.behindCall id below :: machine.callers, machine.globals, machine.console⟩
  /-- The active frame is left, and its value is put on the stack of its caller. -/
  | leaves {value : Option Value} {caller : Frame} {rest : List Frame} {stack : Stack}
      (hreturns : machine.frame.Returns value) (hcallers : machine.callers = caller :: rest)
      (hreceive : receive environment.limits value caller.stack = .ok stack) :
      Transition environment machine ⟨{ caller with stack }, rest, machine.globals, machine.console⟩

theorem transition_of_step {environment : Environment} {machine next : Machine}
    (hstep : machine.step environment = .running next) : machine.Transition environment next := by
  have hadvances := machine.frame.move_advances environment.limits machine.globals machine.console
  rw [step_eq_move] at hstep
  cases hmove : machine.frame.move environment.limits machine.globals machine.console with
  | proceed frame globals console =>
      rw [hmove] at hadvances
      obtain ⟨instruction, hdecode, hadvances⟩ := hadvances
      simp only [hmove] at hstep
      cases hstep
      exact .goesOn hdecode hadvances
  | call id caller =>
      rw [hmove] at hadvances
      obtain ⟨hdecode, hreserved, rfl⟩ := hadvances
      simp only [hmove] at hstep
      split at hstep
      · rename_i callee below hbegin
        cases hstep
        obtain ⟨function, arguments, hfunction, harity, hstack, rfl⟩ := beginCall_eq_ok hbegin
        exact .enters hdecode hreserved hfunction (lt_calls_of_beginCall hbegin) harity hstack
      · cases hstep
  | leave value =>
      rw [hmove] at hadvances
      simp only [hmove] at hstep
      cases hcallers : machine.callers with
      | nil =>
          rw [hcallers] at hstep
          cases hstep
      | cons caller rest =>
          simp only [hcallers, Report.deliver] at hstep
          split at hstep
          · rename_i stack hreceive
            cases hstep
            exact .leaves hadvances hcallers hreceive
          · cases hstep
  | fail error console =>
      simp only [hmove] at hstep
      cases hstep

/-- What holds at first and is kept by every transition holds of every machine that a run comes to. -/
theorem invariant_of_run {environment : Environment} {property : Machine → Prop}
    (hkept : ∀ machine next, property machine → machine.Transition environment next → property next)
    {count : Nat} {first machine : Machine} (hfirst : property first)
    (hrun : first.run environment count = .running machine) : property machine := by
  have hstep : ∀ machine, property machine → (machine.step environment).Meets property fun _ => True := by
    intro machine hmachine
    cases hstatus : machine.step environment with
    | running next => exact hkept machine next hmachine (transition_of_step hstatus)
    | finished report => trivial
  have hmeets := run_meets hstep count hfirst
  rw [hrun] at hmeets
  exact hmeets

end Machine
end StackCode
