import StackCode.Proofs.DispatcherAgreement

/-! What a run can use up. At any time no more calls are active than the limits allow, no stack is higher, and no
frame stands behind the end of its stream. The dispatcher, which keeps the variables of calls on a stack of their
own, always has exactly one strand more than scopes, and so never runs out of strands. -/

namespace StackCode

theorem receive_le {limits : Limits} {value : Option Value} {stack received : Stack}
    (hstack : stack.length ≤ limits.stack) (hreceive : receive limits value stack = .ok received) :
    received.length ≤ limits.stack := by
  cases value with
  | none =>
      cases hreceive
      exact hstack
  | some value => exact (Stack.push_le limits value stack).of_ok hreceive

/-- The stack of the frame is within the limits, and its next instruction within the stream or at its end. -/
structure Frame.Bounded (limits : Limits) (frame : Frame) : Prop where
  height : frame.stack.length ≤ limits.stack
  offset : frame.next ≤ frame.code.size

theorem Frame.Bounded.advances {limits : Limits} {globals after : Scope} {frame left : Frame}
    {instruction : Instruction} (hframe : frame.Bounded limits)
    (hdecode : frame.code.decodeAt frame.next = .ok instruction)
    (hadvances : (frame.advance instruction).Advances limits globals left after) : left.Bounded limits where
  height := hadvances.height hframe.height
  offset := by
    rw [hadvances.code]
    exact hadvances.offset (Stream.le_size_of_decodeAt hdecode)

namespace Machine

structure Bounded (limits : Limits) (machine : Machine) : Prop where
  calls : machine.callers.length ≤ limits.calls
  frames : ∀ frame ∈ machine.frame :: machine.callers, frame.Bounded limits

theorem start_bounded (limits : Limits) (code : Stream) (globals : Scope) (console : Console) :
    (start code globals console).Bounded limits where
  calls := Nat.zero_le _
  frames := by
    intro frame hframe
    rw [List.mem_singleton.mp hframe]
    exact ⟨Nat.zero_le _, Nat.zero_le _⟩

theorem Bounded.transition {environment : Environment} {machine next : Machine}
    (hbounded : machine.Bounded environment.limits) (htransition : machine.Transition environment next) :
    next.Bounded environment.limits := by
  obtain ⟨hcalls, hframes⟩ := hbounded
  obtain ⟨hframe, hcallers⟩ := List.forall_mem_cons.mp hframes
  cases htransition with
  | goesOn hdecode hadvances =>
      exact ⟨hcalls, List.forall_mem_cons.mpr ⟨hframe.advances hdecode hadvances, hcallers⟩⟩
  | @enters id function arguments below hdecode _ _ hdepth _ hstack =>
      have hbehind : (machine.frame.behindCall id below).Bounded environment.limits := by
        refine ⟨?_, Stream.le_size_of_decodeAt hdecode⟩
        have hheight := hframe.height
        rw [hstack, List.length_append] at hheight
        exact (Nat.le_add_left _ _).trans hheight
      refine ⟨hdepth, List.forall_mem_cons.mpr ⟨⟨Nat.zero_le _, Nat.zero_le _⟩, ?_⟩⟩
      exact List.forall_mem_cons.mpr ⟨hbehind, hcallers⟩
  | @leaves value caller rest stack _ hrest hreceive =>
      rw [hrest] at hcalls hcallers
      obtain ⟨hcaller, hbelow⟩ := List.forall_mem_cons.mp hcallers
      refine ⟨(Nat.le_succ _).trans hcalls, List.forall_mem_cons.mpr ⟨⟨?_, hcaller.offset⟩, hbelow⟩⟩
      exact receive_le hcaller.height hreceive

theorem bounded_of_run {environment : Environment} {count : Nat} {code : Stream} {globals : Scope}
    {console : Console} {machine : Machine}
    (hrun : (start code globals console).run environment count = .running machine) :
    machine.Bounded environment.limits :=
  invariant_of_run (fun _ _ hbounded htransition => hbounded.transition htransition)
    (start_bounded environment.limits code globals console) hrun

end Machine

theorem Dispatcher.strand_bounded {limits : Limits} {machine : Machine} (hbounded : machine.Bounded limits)
    {strand : Strand} (hstrand : strand ∈ machine.dispatcher.strands) :
    strand.stack.length ≤ limits.stack ∧ strand.next ≤ strand.code.size := by
  obtain ⟨frame, hframe, rfl⟩ := List.mem_map.mp hstrand
  obtain ⟨hheight, hoffset⟩ := hbounded.frames frame hframe
  exact ⟨hheight, hoffset⟩

/-- Whatever the streams are, a dispatcher that goes on has a strand, and exactly one more than scopes of calls;
its calls, the stacks of its strands and their offsets are bounded. It comes to the states of the machine. -/
theorem dispatcher_bounded (program : Program) (limits : Limits) (globals : Scope) (console : Console)
    (count : Nat) :
    (∀ state, (Dispatcher.start program.main globals console).run ⟨program.functions, limits⟩ count = .going state →
      state.strands ≠ [] ∧ state.strands.length = state.scopes.length + 1 ∧ state.scopes.length ≤ limits.calls ∧
      ∀ strand ∈ state.strands, strand.stack.length ≤ limits.stack ∧ strand.next ≤ strand.code.size ∧
        ∀ instruction, strand.code.decodeAt strand.next = .ok instruction →
          strand.next + instruction.length ≤ strand.code.size) ∧
    ∀ machine, (Machine.start program.main globals console).run ⟨program.functions, limits⟩ count = .running machine →
      (Dispatcher.start program.main globals console).run ⟨program.functions, limits⟩ count =
        .going machine.dispatcher := by
  constructor
  · intro state hrun
    obtain ⟨machine, hmachine, rfl⟩ := Dispatcher.exists_machine_of_run hrun
    have hnested := Machine.callsNested_of_run hmachine
    have hbounded := Machine.bounded_of_run hmachine
    have hscopes : machine.dispatcher.scopes.length = machine.callers.length := hnested.length_localScopes
    refine ⟨List.cons_ne_nil _ _, ?_, ?_, ?_⟩
    · rw [hscopes]
      exact List.length_map _
    · rw [hscopes]
      exact hbounded.calls
    · intro strand hstrand
      obtain ⟨hheight, hoffset⟩ := Dispatcher.strand_bounded hbounded hstrand
      exact ⟨hheight, hoffset, fun instruction => Stream.le_size_of_decodeAt⟩
  · intro machine hmachine
    exact Dispatcher.going_of_running
      (Dispatcher.start_agrees ⟨program.functions, limits⟩ count program.main globals console) hmachine

/-- Calls a function that calls itself with two operands. -/
def recursesDeeply : Program where
  main := .ofInstructions [.pushInt 5, .call 64]
  functions := .ofList [(64, ⟨[70], .ofInstructions [.load 70, .load 70, .call 64]⟩)]

/-- Two calls are active, and the stack of the inner one is full. -/
def recursing : Machine where
  frame := ⟨.ofInstructions [.load 70, .load 70, .call 64], some (.ofList [(70, .int 5)]), [.int 5, .int 5], 18, 9⟩
  callers :=
    [⟨.ofInstructions [.load 70, .load 70, .call 64], some (.ofList [(70, .int 5)]), [.int 5], 27, 18⟩,
     ⟨recursesDeeply.main, none, [], 11, 2⟩]
  globals := .empty
  console := ⟨[], #[], none⟩

theorem dispatcher_bounded_recursesDeeply :
    (Machine.start recursesDeeply.main .empty ⟨[], #[], none⟩).run ⟨recursesDeeply.functions, ⟨2, 2, 0⟩⟩ 7 =
      .running recursing ∧
    (Dispatcher.start recursesDeeply.main .empty ⟨[], #[], none⟩).run ⟨recursesDeeply.functions, ⟨2, 2, 0⟩⟩ 7 =
      .going recursing.dispatcher ∧
    recursing.dispatcher.strands.length = 3 ∧ recursing.dispatcher.scopes.length = 2 ∧
    ∀ strand ∈ recursing.dispatcher.strands, strand.stack.length ≤ 2 ∧ strand.next ≤ strand.code.size := by
  have hrun : (Machine.start recursesDeeply.main .empty ⟨[], #[], none⟩).run
      ⟨recursesDeeply.functions, ⟨2, 2, 0⟩⟩ 7 = .running recursing := by decide +kernel
  obtain ⟨hbounded, hagrees⟩ := dispatcher_bounded recursesDeeply ⟨2, 2, 0⟩ .empty ⟨[], #[], none⟩ 7
  have hgoing := hagrees recursing hrun
  obtain ⟨-, hstrands, -, hframes⟩ := hbounded recursing.dispatcher hgoing
  refine ⟨hrun, hgoing, hstrands, rfl, ?_⟩
  intro strand hstrand
  obtain ⟨hheight, hoffset, -⟩ := hframes strand hstrand
  exact ⟨hheight, hoffset⟩

end StackCode
