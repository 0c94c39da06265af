import StackCode.Proofs.BalancedCode
import StackCode.Proofs.Instructions
import StackCode.Proofs.JumpAgreement
import StackCode.Proofs.Transitions

/-! The table of stack effects describes the machine. An instruction that succeeds has taken as many values from the
operand stack as the table says and put as many in their place, and has not touched those below; without that many
values it does not succeed. Only a return and the call of a function of the program leave the frame. -/

namespace StackCode

/-- The change leads from one stack to another: the values on top are gone, others are there in their place, and those
below are as they were. -/
structure HeightChange.Makes (change : HeightChange) (before after : Stack) : Prop where
  enough : change.pops ≤ before.length
  rest : ∃ pushed : Stack, pushed.length = change.pushes ∧ after = pushed ++ before.drop change.pops

/-- Values were taken from the top of a stack. -/
structure Stack.Taken (count : Nat) (before rest : Stack) : Prop where
  enough : count ≤ before.length
  rest : rest = before.drop count

namespace Stack

theorem taken_zero (stack : Stack) : Taken 0 stack stack := ⟨Nat.zero_le _, rfl⟩

theorem taken_one (value : Value) (rest : Stack) : Taken 1 (value :: rest) rest := ⟨by simp, rfl⟩

theorem pop_taken (stack : Stack) : Ensures (fun _ => True) (fun popped => Taken 1 stack popped.2) stack.pop := by
  cases stack with
  | nil => trivial
  | cons value rest => exact taken_one value rest

theorem popMany_taken (count : Nat) (stack : Stack) :
    Ensures (fun _ => True) (fun popped => Taken count stack popped.2) (stack.popMany count) := by
  unfold popMany
  split
  · rename_i henough
    exact ⟨henough, rfl⟩
  · trivial

theorem popPath_taken (count : Nat) (stack : Stack) :
    Ensures (fun _ => True) (fun popped => Taken count stack popped.2) (stack.popPath count) := by
  unfold popPath
  split
  · rename_i henough
    exact ⟨henough, rfl⟩
  · trivial

/-- One value is put in the place of those that were taken. -/
theorem Taken.push {count : Nat} {before rest : Stack} (htaken : Taken count before rest) (limits : Limits)
    (value : Value) : Ensures (fun _ => True) (HeightChange.Makes ⟨count, 1⟩ before) (rest.push limits value) := by
  unfold Stack.push
  split
  · exact ⟨htaken.enough, [value], rfl, by rw [htaken.rest]; rfl⟩
  · trivial

theorem Taken.makes {count : Nat} {before rest : Stack} (htaken : Taken count before rest) :
    HeightChange.Makes ⟨count, 0⟩ before rest :=
  ⟨htaken.enough, [], rfl, htaken.rest⟩

theorem Taken.trans {first second : Nat} {before between rest : Stack} (hfirst : Taken first before between)
    (hsecond : Taken second between rest) : Taken (first + second) before rest := by
  obtain ⟨henough, rfl⟩ := hfirst
  obtain ⟨hmore, rfl⟩ := hsecond
  rw [List.length_drop] at hmore
  refine ⟨by omega, ?_⟩
  rw [List.drop_drop]

end Stack

namespace Operation

theorem apply_nil (operation : Operation) : ∃ fault, operation.apply [] = .error fault := by
  cases operation with
  | intArith op => cases op <;> exact ⟨_, rfl⟩
  | compare relation family => cases family <;> exact ⟨_, rfl⟩
  | _ => exact ⟨_, rfl⟩

theorem apply_singleton {operation : Operation} (harity : operation.arity = 2) (x : Value) :
    ∃ fault, operation.apply [x] = .error fault := by
  cases operation with
  | intArith op =>
      simp only [apply]
      by_cases hzero : (op.divides && hasZeroDivisor [x]) = true
      · rw [if_pos hzero]
        exact ⟨_, rfl⟩
      · rw [if_neg hzero]
        exact ⟨_, rfl⟩
  | compare relation family => cases family <;> cases x <;> exact ⟨_, rfl⟩
  | floatArith | concat => cases x <;> exact ⟨_, rfl⟩
  | logic | index => exact ⟨_, rfl⟩
  | _ => cases harity

theorem apply_taken (operation : Operation) (stack : Stack) :
    Ensures (fun _ => True) (fun result => Stack.Taken operation.arity stack result.2) (operation.apply stack) := by
  have hfault : ∀ result : Except Fault (Value × Stack), (∃ fault, result = .error fault) →
      Ensures (fun _ => True) (fun result => Stack.Taken operation.arity stack result.2) result := by
    rintro result ⟨fault, rfl⟩
    trivial
  have harity : operation.arity = 1 ∨ operation.arity = 2 := by
    cases operation <;> simp [arity]
  rcases stack with _ | ⟨x, _ | ⟨y, below⟩⟩
  · exact hfault _ operation.apply_nil
  · rcases harity with hone | htwo
    · rw [apply_one hone, hone]
      exact (ensures_any _).map fun _ _ => ⟨by simp, rfl⟩
    · exact hfault _ (apply_singleton htwo x)
  · rcases harity with hone | htwo
    · rw [apply_one hone, hone]
      exact (ensures_any _).map fun _ _ => ⟨by simp, rfl⟩
    · rw [apply_two htwo, htwo]
      exact (ensures_any _).map fun _ _ => ⟨by simp, rfl⟩

end Operation

/-- A built-in function takes its arguments and leaves its value, if it has one. -/
theorem Builtin.perform_makes (limits : Limits) (stack : Stack) (console : Console) (function : Builtin) :
    Ensures (fun _ => True) (HeightChange.Makes ⟨function.arity, function.returnsValue.toNat⟩ stack)
      (function.perform limits stack console).1 := by
  cases function with
  | input =>
      simp only [perform]
      split
      · exact (Stack.taken_zero stack).push limits _
      · trivial
  | print form =>
      cases stack with
      | nil => trivial
      | cons value rest =>
          simp only [perform]
          split
          · trivial
          · split
            · exact (Stack.taken_one value rest).makes
            · trivial
  | convert conversion =>
      cases stack with
      | nil => trivial
      | cons value rest =>
          simp only [perform]
          split
          · trivial
          · exact (Stack.taken_one value rest).push limits _

/-- An action that goes on with the frame has made the change. -/
def Action.Makes (change : HeightChange) (stack : Stack) : Action → Prop
  | .proceed next _ => change.Makes stack next.stack
  | .builtin _ _ | .call _ _ | .leave _ => True

namespace Frame

variable {signatures : CallSignatures} {change : HeightChange}

theorem pushOn_makes {count : Nat} {frame : Frame} {rest : Stack} (htaken : Stack.Taken count frame.stack rest)
    (limits : Limits) (globals : Scope) (value : Value) :
    Ensures (fun _ => True) (Action.Makes ⟨count, 1⟩ frame.stack)
      (frame.pushOn limits rest value >>= fun next => .ok (.proceed next globals)) := by
  have hpush : Ensures (fun _ => True) (fun next => HeightChange.Makes ⟨count, 1⟩ frame.stack next.stack)
      (frame.pushOn limits rest value) :=
    (htaken.push limits value).bind fun _ hmakes => hmakes
  exact hpush.bind fun _ hmakes => hmakes

theorem jumpForward_makes {count : Nat} {frame : Frame} {stack : Stack} (htaken : Stack.Taken count frame.stack stack)
    (globals : Scope) (distance : UInt64) :
    Ensures (fun _ => True) (Action.Makes ⟨count, 0⟩ frame.stack)
      ({ frame with stack }.jumpForward distance >>= fun next => .ok (.proceed next globals)) := by
  simp only [jumpForward]
  split
  · exact htaken.makes
  · trivial

theorem jumpBackward_makes (frame : Frame) (globals : Scope) (distance : UInt64) :
    Ensures (fun _ => True) (Action.Makes ⟨0, 0⟩ frame.stack)
      (frame.jumpBackward distance >>= fun next => .ok (.proceed next globals)) := by
  simp only [jumpBackward]
  split
  · exact (Stack.taken_zero frame.stack).makes
  · trivial

theorem execute_makes (limits : Limits) (globals : Scope) (frame : Frame) {instruction : Instruction}
    (hchange : instruction.change? signatures = some change) :
    Ensures (fun _ => True) (Action.Makes change frame.stack) (frame.execute limits globals instruction) := by
  obtain ⟨opcode, operand⟩ := instruction
  have hnothing := Stack.taken_zero frame.stack
  cases opcode with
  | pushInt | pushUInt | pushSingle | pushDouble =>
      cases hchange
      exact (ensures_any _).bind fun value _ => pushOn_makes hnothing limits globals value
  | operate operation =>
      cases hchange
      refine (operation.apply_taken frame.stack).bind fun result htaken => ?_
      exact pushOn_makes htaken limits globals result.1
  | load =>
      cases hchange
      refine (ensures_any _).bind fun id _ => (ensures_any _).bind fun value _ => ?_
      exact pushOn_makes hnothing limits globals value
  | store =>
      cases hchange
      exact (ensures_any _).bind fun id _ => (Stack.pop_taken frame.stack).bind fun popped htaken => htaken.makes
  | loadElement =>
      cases operand with
      | element id depth =>
          cases hchange
          refine (Stack.popPath_taken depth.toNat frame.stack).bind fun path htaken => ?_
          refine (ensures_any _).bind fun base _ => (ensures_any _).bind fun value _ => ?_
          exact pushOn_makes (hnothing.trans htaken) limits globals value
      | _ => trivial
  | storeElement =>
      cases operand with
      | element id depth =>
          cases hchange
          refine (Stack.pop_taken frame.stack).bind fun popped hpopped => ?_
          refine (Stack.popPath_taken depth.toNat popped.2).bind fun path hpath => ?_
          refine (ensures_any _).bind fun base _ => (ensures_any _).bind fun updated _ => ?_
          exact (hpopped.trans hpath).makes
      | _ => trivial
  | allocString =>
      cases operand with
      | word count =>
          cases hchange
          refine (Stack.popMany_taken count.toNat frame.stack).bind fun codes htaken => ?_
          exact (ensures_any _).bind fun chars _ => pushOn_makes (hnothing.trans htaken) limits globals _
      | _ => trivial
  | allocArray =>
      cases operand with
      | word count =>
          cases hchange
          refine (Stack.popMany_taken count.toNat frame.stack).bind fun items htaken => ?_
          exact pushOn_makes (hnothing.trans htaken) limits globals _
      | _ => trivial
  | allocFilled =>
      cases operand with
      | fill dims leaf =>
          cases hchange
          refine (Stack.popMany_taken dims.toNat frame.stack).bind fun sizes htaken => ?_
          refine (ensures_any _).bind fun shape _ => (ensures_any _).bind fun _ _ => ?_
          exact pushOn_makes (hnothing.trans htaken) limits globals _
      | _ => trivial
  | jump =>
      cases hchange
      exact (ensures_any _).bind fun distance _ => jumpForward_makes hnothing globals distance
  | jumpBackward =>
      cases hchange
      exact (ensures_any _).bind fun distance _ => frame.jumpBackward_makes globals distance
  | jumpIfFalse =>
      cases hchange
      refine (ensures_any _).bind fun distance _ => (Stack.pop_taken frame.stack).bind fun popped htaken => ?_
      simp only
      split
      · exact htaken.makes
      · exact jumpForward_makes htaken globals distance
      · trivial
  | call =>
      cases operand with
      | word id =>
          change Ensures _ _ (if isReserved id then _ else _)
          split
          · split <;> trivial
          · trivial
      | _ => trivial
  | ret => trivial
  | pop =>
      cases hchange
      exact (Stack.pop_taken frame.stack).bind fun popped htaken => htaken.makes

end Frame

/-- Every instruction that can be decoded has a change, unless it is a return. -/
theorem Instruction.exists_change? (signatures : CallSignatures) {instruction : Instruction}
    (hshape : instruction.WellShaped) (hreturn : instruction.opcode ≠ .ret) :
    ∃ change, instruction.change? signatures = some change := by
  obtain ⟨opcode, operand⟩ := instruction
  cases opcode with
  | ret => exact absurd rfl hreturn
  | loadElement | storeElement =>
      cases operand with
      | element id depth => exact ⟨_, rfl⟩
      | _ => exact hshape.elim
  | allocString | allocArray | call =>
      cases operand with
      | word n => exact ⟨_, rfl⟩
      | _ => exact hshape.elim
  | allocFilled =>
      cases operand with
      | fill dims leaf => exact ⟨_, rfl⟩
      | _ => exact hshape.elim
  | _ => exact ⟨_, rfl⟩

namespace Machine

variable {signatures : CallSignatures} {environment : Environment} {machine next : Machine}
  {instruction : Instruction}

theorem step_makes {change : HeightChange}
    (hdecode : machine.frame.code.decodeAt machine.frame.next = .ok instruction)
    (hreturn : instruction.opcode ≠ .ret) (huser : ∀ id, instruction = .call id → isReserved id = true)
    (hchange : instruction.change? signatures = some change) (hstep : machine.step environment = .running next) :
    change.Makes machine.frame.stack next.frame.stack ∧ next.frame.code = machine.frame.code ∧
      next.callers = machine.callers := by
  let frame := machine.frame.advance instruction
  have hmakes := frame.execute_makes environment.limits machine.globals hchange
  have hadvances := frame.execute_advances environment.limits machine.globals instruction
  rw [step_of_decodeAt hdecode, perform] at hstep
  cases hexecute : frame.execute environment.limits machine.globals instruction with
  | error fault =>
      rw [hexecute] at hstep
      cases hstep
  | ok action =>
      rw [hexecute] at hstep hmakes hadvances
      cases action with
      | proceed next globals =>
          cases hstep
          exact ⟨hmakes, hadvances.code, rfl⟩
      | leave value => exact absurd hadvances.1 hreturn
      | call id caller =>
          have hreserved := huser id hadvances.1
          rw [hadvances.2.1] at hreserved
          cases hreserved
      | builtin function caller =>
          -- the signatures of built-in functions are those of their table
          obtain ⟨rfl, rfl⟩ : instruction = .call function.id ∧ caller = frame := hadvances
          obtain rfl : change = ⟨function.arity, function.returnsValue.toNat⟩ := by
            have hsignature : some (HeightChange.mk (signatures.of function.id).arguments
                (signatures.of function.id).returnsValue.toNat) = some change := hchange
            rw [signatures.builtins] at hsignature
            exact (Option.some.inj hsignature).symm
          have hperform := function.perform_makes environment.limits machine.frame.stack machine.console
          simp only [performBuiltin] at hstep
          rcases hresult : function.perform environment.limits machine.frame.stack machine.console with
            ⟨fault | stack, console⟩
          · have hfails : function.perform environment.limits frame.stack machine.console = _ := hresult
            rw [hfails] at hstep
            cases hstep
          · have hsucceeds : function.perform environment.limits frame.stack machine.console = _ := hresult
            rw [hsucceeds] at hstep
            rw [hresult] at hperform
            cases hstep
            exact ⟨hperform, rfl, rfl⟩

/-- The stack effects of the opcodes, with the tables of the built-in functions for their calls, describe the steps
of the machine. A step that succeeds takes and puts exactly as many values as they say and goes on in its frame; where
there are fewer values than are to be taken, no step succeeds. -/
theorem stackEffect_describes_step (signatures : CallSignatures) {environment : Environment} {machine : Machine}
    {instruction : Instruction} (hdecode : machine.frame.code.decodeAt machine.frame.next = .ok instruction)
    (hreturn : instruction.opcode ≠ .ret) (huser : ∀ id, instruction = .call id → isReserved id = true) :
    ∃ change, instruction.change? signatures = some change ∧
      (∀ next, machine.step environment = .running next →
        change.Makes machine.frame.stack next.frame.stack ∧ next.frame.code = machine.frame.code ∧
          next.callers = machine.callers) ∧
      (machine.frame.stack.length < change.pops → ∃ report, machine.step environment = .finished report) := by
  obtain ⟨change, hchange⟩ := Instruction.exists_change? signatures (Instruction.of_decode hdecode).2 hreturn
  refine ⟨change, hchange, fun next => step_makes hdecode hreturn huser hchange, fun hfew => ?_⟩
  cases hstep : machine.step environment with
  | finished report => exact ⟨report, rfl⟩
  | running next =>
      have henough := (step_makes hdecode hreturn huser hchange hstep).1.enough
      omega

/-- A machine that is about to overwrite an element two subscripts deep. -/
def storing (stack : Stack) : Machine where
  frame := ⟨.ofInstructions [.storeElement 70 2], none, stack, 0, 0⟩
  callers := []
  globals := .ofList [(70, .array [.array [.int 1, .int 2], .array [.int 3]])]
  console := ⟨[], #[], none⟩

theorem stackEffect_describes_step_storing :
    (∃ next, (storing [.int 9, .int 0, .uint 1, .str "kept"]).step ⟨.empty, .default⟩ = .running next ∧
      next.frame.stack = [.str "kept"]) ∧
      ∃ report, (storing [.int 9, .int 0]).step ⟨.empty, .default⟩ = .finished report := by
  have hdecode : (Stream.ofInstructions [.storeElement 70 2]).decodeAt 0 = .ok (.storeElement 70 2) := by
    decide +kernel
  have huser : ∀ id, Instruction.storeElement 70 2 = .call id → isReserved id = true := by
    intro id hcall
    cases hcall
  have hdescribes : ∀ stack, ∃ change, (Instruction.storeElement 70 2).change? (.ofTable .empty) = some change ∧ _ :=
    fun stack => @stackEffect_describes_step (.ofTable .empty) ⟨.empty, .default⟩ (storing stack) _ hdecode
      (by decide) huser
  constructor
  · obtain ⟨change, hchange, hmakes, -⟩ := hdescribes [.int 9, .int 0, .uint 1, .str "kept"]
    cases hchange
    have hruns : ∃ next, (storing [.int 9, .int 0, .uint 1, .str "kept"]).step ⟨.empty, .default⟩ = .running next :=
      ⟨⟨⟨.ofInstructions [.storeElement 70 2], none, [.str "kept"], 17, 0⟩, [],
        .ofList [(70, .array [.array [.int 1, .int 9], .array [.int 3]])], ⟨[], #[], none⟩⟩, by decide +kernel⟩
    obtain ⟨next, hstep⟩ := hruns
    obtain ⟨pushed, hpushed, hstack⟩ := (hmakes next hstep).1.rest
    obtain rfl := List.length_eq_zero_iff.mp hpushed
    exact ⟨next, hstep, hstack⟩
  · obtain ⟨change, hchange, -, hfew⟩ := hdescribes [.int 9, .int 0]
    cases hchange
    exact hfew (by decide)

end Machine
end StackCode
