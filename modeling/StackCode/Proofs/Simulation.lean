import StackCode.Proofs.Code
import StackCode.Proofs.Meaning
import StackCode.Proofs.Steps

/-! Code that carries out an evaluation. Where such code stands in a stream, a machine that starts at it comes
to its end with the values of the evaluation on the stack, or ends with the fault of the evaluation. Pieces of
code are put together as evaluations are. -/

namespace StackCode

namespace Stream

/-- The code stands at an offset of the stream. -/
structure Holds (stream : Stream) (offset : Nat) (code : List Instruction) : Prop where
  encodable : ∀ instruction ∈ code, instruction.Encodable
  bytes : ∃ front back, stream.bytes.toList = front ++ encodeAll code ++ back ∧ front.length = offset

variable {stream : Stream} {offset : Nat}

theorem Holds.left {first second : List Instruction} (hholds : stream.Holds offset (first ++ second)) :
    stream.Holds offset first := by
  obtain ⟨hencodable, front, back, hbytes, hlength⟩ := hholds
  refine ⟨fun instruction hmem => hencodable instruction (List.mem_append_left _ hmem), front,
    encodeAll second ++ back, ?_, hlength⟩
  rw [hbytes, encodeAll_append]
  simp

theorem Holds.right {first second : List Instruction} (hholds : stream.Holds offset (first ++ second)) :
    stream.Holds (offset + codeSize first) second := by
  obtain ⟨hencodable, front, back, hbytes, hlength⟩ := hholds
  refine ⟨fun instruction hmem => hencodable instruction (List.mem_append_right _ hmem),
    front ++ encodeAll first, back, ?_, ?_⟩
  · rw [hbytes, encodeAll_append]
    simp
  · rw [List.length_append, length_encodeAll, hlength]

theorem Holds.tail {instruction : Instruction} {rest : List Instruction}
    (hholds : stream.Holds offset (instruction :: rest)) : stream.Holds (offset + instruction.length) rest := by
  have hright : stream.Holds (offset + codeSize [instruction]) rest := Holds.right hholds
  rwa [codeSize_cons, codeSize_nil] at hright

theorem Holds.decodeAt {instruction : Instruction} {rest : List Instruction}
    (hholds : stream.Holds offset (instruction :: rest)) : stream.decodeAt offset = .ok instruction := by
  obtain ⟨hencodable, front, back, hbytes, rfl⟩ := hholds
  have hsplit : stream.bytes.toList = front ++ instruction.encode ++ (encodeAll rest ++ back) := by
    rw [hbytes, encodeAll_cons]
    simp
  exact Instruction.decode_of_split (hencodable instruction List.mem_cons_self) hsplit

theorem Holds.le_size {code : List Instruction} (hholds : stream.Holds offset code) :
    offset + codeSize code ≤ stream.size := by
  obtain ⟨-, front, back, hbytes, rfl⟩ := hholds
  rw [size, ← Array.length_toList, hbytes]
  simp

theorem holds_ofInstructions {code : List Instruction}
    (hencodable : ∀ instruction ∈ code, instruction.Encodable) : (ofInstructions code).Holds 0 code := by
  refine ⟨hencodable, [], [], ?_, rfl⟩
  rw [toList_ofInstructions]
  simp

end Stream

/-- A stream in execution, and the frames that wait for it. -/
structure Site where
  code : Stream
  short : code.size < Instruction.offsetBound
  callers : List Frame

namespace Site

/-- The machine that executes the stream. -/
def machine (site : Site) (next current : Nat) (stack : Stack) (state : State) : Machine :=
  ⟨⟨site.code, state.scopes.locals, stack, next, current⟩, site.callers, state.scopes.globals, state.console⟩

theorem step_machine (environment : Environment) (site : Site) {next current : Nat} {stack : Stack}
    {state : State} {instruction : Instruction} (hdecode : site.code.decodeAt next = .ok instruction) :
    (site.machine next current stack state).step environment =
      (site.machine next current stack state).perform environment
        ⟨site.code, state.scopes.locals, stack, next + instruction.length, next⟩ instruction := by
  have hnext : ¬ site.code.size ≤ next := by
    have hend := (Instruction.of_decode hdecode).1
    have hlength := instruction.one_le_length
    change next + instruction.length ≤ site.code.size at hend
    omega
  rw [Machine.step]
  refine (if_neg hnext).trans ?_
  rw [show (site.machine next current stack state).frame.code.decodeAt
    (site.machine next current stack state).frame.next = .ok instruction from hdecode]
  rfl

end Site

/-- The machine has come to the end of the code with the values on the stack, or is about to leave its
frame. -/
def Completion.Reached (environment : Environment) (site : Site) (target : Nat) (state : State)
    (machine : Machine) : Completion → Prop
  | .normal stack => ∃ current, machine = site.machine target current stack state
  | .returned value =>
    machine.step environment = (site.machine 0 0 [] state).leave environment value

/-- The machine does what an outcome says. An evaluation that ran out of fuel tells that the machine runs on
for at least as many steps. -/
def Follows {α : Type} (environment : Environment) (fuel : Nat) (machine : Machine)
    (arrives : α → State → Machine → Prop) : Outcome α → Prop
  | .done value state =>
    ∃ count next, machine.run environment count = .running next ∧ arrives value state next
  | .fault cause globals console =>
    ∃ offset, machine.Ends environment ⟨.error (.fault offset cause), globals, console⟩
  | .undefined => True
  | .exhausted => ∃ next, machine.run environment fuel = .running next

namespace Follows

variable {α β : Type} {environment : Environment} {fuel : Nat} {machine : Machine}
  {arrives : α → State → Machine → Prop} {concludes : β → State → Machine → Prop}

theorem less_fuel {outcome : Outcome α} {less : Nat}
    (hfollows : Follows environment fuel machine arrives outcome) (hless : less ≤ fuel) :
    Follows environment less machine arrives outcome := by
  cases outcome with
  | done value state => exact hfollows
  | fault cause globals console => exact hfollows
  | undefined => trivial
  | exhausted =>
      obtain ⟨target, hrun⟩ := hfollows
      exact Machine.run_running_of_le hrun hless

/-- What follows some steps follows from the start, and these steps count. -/
theorem of_run_add {outcome : Outcome α} {count : Nat} {next : Machine}
    (hrun : machine.run environment count = .running next)
    (hnext : Follows environment fuel next arrives outcome) :
    Follows environment (count + fuel) machine arrives outcome := by
  have hadd : ∀ more, machine.run environment (count + more) = next.run environment more := by
    intro more
    rw [Machine.run_add, hrun]
  cases outcome with
  | done value state =>
      obtain ⟨more, target, htarget, harrives⟩ := hnext
      exact ⟨count + more, target, (hadd more).trans htarget, harrives⟩
  | fault cause globals console =>
      obtain ⟨offset, more, hends⟩ := hnext
      exact ⟨offset, count + more, (hadd more).trans hends⟩
  | undefined => trivial
  | exhausted =>
      obtain ⟨target, htarget⟩ := hnext
      exact ⟨target, (hadd fuel).trans htarget⟩

theorem of_run {outcome : Outcome α} {count : Nat} {next : Machine}
    (hrun : machine.run environment count = .running next)
    (hnext : Follows environment fuel next arrives outcome) :
    Follows environment fuel machine arrives outcome :=
  (of_run_add hrun hnext).less_fuel (Nat.le_add_left fuel count)

theorem bind {first : Evaluation α} {next : α → Evaluation β} {state : State}
    (hfirst : Follows environment fuel machine arrives (first.run state))
    (hnext : ∀ value after target, first.run state = .done value after → arrives value after target →
      Follows environment fuel target concludes ((next value).run after)) :
    Follows environment fuel machine concludes ((first >>= next).run state) := by
  rw [Evaluation.run_bind]
  cases houtcome : first.run state with
  | done value after =>
      rw [houtcome] at hfirst
      obtain ⟨count, target, hrun, harrives⟩ := hfirst
      exact of_run hrun (hnext value after target houtcome harrives)
  | fault cause globals console =>
      rw [houtcome] at hfirst
      exact hfirst
  | undefined => trivial
  | exhausted =>
      rw [houtcome] at hfirst
      exact hfirst

/-- Where the machine always gets further, it follows the outcome to there. -/
theorem extend {other : α → State → Machine → Prop} {outcome : Outcome α}
    (hfollows : Follows environment fuel machine arrives outcome)
    (hmore : ∀ value state target, arrives value state target →
      ∃ count next, target.run environment count = .running next ∧ other value state next) :
    Follows environment fuel machine other outcome := by
  cases outcome with
  | done value state =>
      obtain ⟨count, target, hrun, harrives⟩ := hfollows
      obtain ⟨more, next, hnext, hother⟩ := hmore value state target harrives
      refine ⟨count + more, next, ?_, hother⟩
      rw [Machine.run_add, hrun]
      exact hnext
  | fault cause globals console => exact hfollows
  | undefined => trivial
  | exhausted => exact hfollows

end Follows

theorem Frame.pushOn_eq (frame : Frame) (limits : Limits) (below : Stack) (value : Value) :
    frame.pushOn limits below value =
      if below.length < limits.stack then .ok { frame with stack := value :: below }
      else .error .stackOverflow := by
  unfold pushOn push Stack.push
  split <;> rfl

/-- Wherever the code stands, it carries out the evaluation on a stack: it comes to completions that depend
on the value. -/
def Carries {α : Type} (environment : Environment) (fuel : Nat) (site : Site) (code : List Instruction)
    (stack : Stack) (evaluation : Evaluation α) (completion : α → Completion) : Prop :=
  ∀ offset, site.code.Holds offset code → ∀ current state,
    Follows environment fuel (site.machine offset current stack state)
      (fun value after target =>
        (completion value).Reached environment site (offset + codeSize code) after target)
      (evaluation.run state)

namespace Evaluation

variable {α β : Type} {property : α → Prop} {result : β → Prop}

/-- The value of an evaluation has a property. -/
def Yields (evaluation : Evaluation α) (property : α → Prop) : Prop :=
  ∀ state value after, evaluation.run state = .done value after → property value

theorem yields_true (evaluation : Evaluation α) : evaluation.Yields fun _ => True := fun _ _ _ _ => trivial

theorem yields_pure {value : α} (hvalue : property value) : (pure value : Evaluation α).Yields property := by
  intro state found after hdone
  cases hdone
  exact hvalue

/-- The two parts of an evaluation that has a value. -/
theorem exists_of_run_bind {first : Evaluation α} {next : α → Evaluation β} {state after : State} {found : β}
    (hdone : (first >>= next).run state = .done found after) :
    ∃ value between, first.run state = .done value between ∧ (next value).run between = .done found after := by
  rw [run_bind] at hdone
  cases houtcome : first.run state with
  | done value between =>
      rw [houtcome] at hdone
      exact ⟨value, between, rfl, hdone⟩
  | _ =>
      rw [houtcome] at hdone
      cases hdone

theorem Yields.bind {first : Evaluation α} {next : α → Evaluation β} (hfirst : first.Yields property)
    (hnext : ∀ value, property value → (next value).Yields result) : (first >>= next).Yields result := by
  intro state found after hdone
  obtain ⟨value, between, hvalue, hfound⟩ := exists_of_run_bind hdone
  exact hnext value (hfirst state value between hvalue) between found after hfound

end Evaluation

namespace Carries

variable {α β : Type} {environment : Environment} {fuel : Nat} {site : Site}
  {code rest : List Instruction} {stack : Stack} {first : Evaluation α} {next : α → Evaluation β}
  {completion : α → Completion} {concludes : β → Completion} {leaves : α → Stack}

theorem bind_of_yields {property : α → Prop} (hyields : first.Yields property)
    (hfirst : Carries environment fuel site code stack first fun value => .normal (leaves value))
    (hnext : ∀ value, property value →
      Carries environment fuel site rest (leaves value) (next value) concludes) :
    Carries environment fuel site (code ++ rest) stack (first >>= next) concludes := by
  intro offset hholds current state
  refine (hfirst offset hholds.left current state).bind ?_
  rintro value after target hdone ⟨between, rfl⟩
  have hsecond := hnext value (hyields state value after hdone) _ hholds.right between after
  rwa [codeSize_append, ← Nat.add_assoc]

theorem bind (hfirst : Carries environment fuel site code stack first fun value => .normal (leaves value))
    (hnext : ∀ value, Carries environment fuel site rest (leaves value) (next value) concludes) :
    Carries environment fuel site (code ++ rest) stack (first >>= next) concludes :=
  bind_of_yields first.yields_true hfirst fun value _ => hnext value

theorem of_pure {value : α} (hcompletion : completion value = .normal stack) :
    Carries environment fuel site [] stack (pure value) completion := by
  intro offset _ current state
  refine ⟨0, _, rfl, ?_⟩
  simp only [hcompletion]
  exact ⟨current, rfl⟩

/-- A value that is only handed on. -/
theorem map (transform : α → β)
    (hfirst : Carries environment fuel site code stack first fun value => concludes (transform value)) :
    Carries environment fuel site code stack (first >>= fun value => pure (transform value)) concludes := by
  intro offset hholds current state
  refine (hfirst offset hholds current state).bind fun value after target _ harrives => ?_
  exact ⟨0, target, rfl, harrives⟩

theorem needed {evaluation : Evaluation (Option Value)} {below : Stack}
    (hevaluation : Carries environment fuel site code stack evaluation
      fun result => .normal (result.toList ++ below)) :
    Carries environment fuel site code stack evaluation.needed fun value => .normal (value :: below) := by
  intro offset hholds current state
  refine (hevaluation offset hholds current state).bind fun result after target _ harrives => ?_
  cases result with
  | none => trivial
  | some value => exact ⟨0, target, rfl, harrives⟩

/-- Nothing is to be done where an evaluation has no meaning. -/
theorem of_undefined : Carries environment fuel site code stack Evaluation.undefined completion :=
  fun _ _ _ _ => trivial

/-- One step of the machine that leaves it in the frame. -/
theorem of_perform {instruction : Instruction} (hperform : ∀ before next current state,
      match first.run state with
      | .done value after =>
        Machine.perform environment ⟨before, site.callers, state.scopes.globals, state.console⟩
          ⟨site.code, state.scopes.locals, stack, next, current⟩ instruction =
            .running (site.machine next current (leaves value) after)
      | .fault cause globals console =>
        Machine.perform environment ⟨before, site.callers, state.scopes.globals, state.console⟩
          ⟨site.code, state.scopes.locals, stack, next, current⟩ instruction =
            .finished ⟨.error (.fault current cause), globals, console⟩
      | .undefined => True
      | .exhausted => False) :
    Carries environment fuel site [instruction] stack first fun value => .normal (leaves value) := by
  intro offset hholds current state
  have hone := hperform ⟨site.code, state.scopes.locals, stack, offset, current⟩ (offset + instruction.length)
    offset state
  cases houtcome : first.run state with
  | done value after =>
      rw [houtcome] at hone
      have hstep : (site.machine offset current stack state).step environment = _ :=
        (site.step_machine environment hholds.decodeAt).trans hone
      refine ⟨1, site.machine (offset + instruction.length) offset (leaves value) after, ?_, offset, rfl⟩
      rw [Machine.run_succ, hstep]
      rfl
  | fault cause globals console =>
      rw [houtcome] at hone
      have hstep : (site.machine offset current stack state).step environment = _ :=
        (site.step_machine environment hholds.decodeAt).trans hone
      refine ⟨offset, 1, ?_⟩
      rw [Machine.run_succ, hstep]
  | undefined => trivial
  | exhausted =>
      rw [houtcome] at hone
      exact hone.elim

/-- One instruction that only the frame and the globals take part in. -/
theorem of_execute {instruction : Instruction} (hexecute : ∀ locals globals next current console,
      match first.run ⟨⟨globals, locals⟩, console⟩ with
      | .done value after =>
        Frame.execute environment.limits globals ⟨site.code, locals, stack, next, current⟩ instruction =
            .ok (.proceed ⟨site.code, after.scopes.locals, leaves value, next, current⟩ after.scopes.globals) ∧
          after.console = console
      | .fault cause globals' console' =>
        Frame.execute environment.limits globals ⟨site.code, locals, stack, next, current⟩ instruction =
          .error cause ∧ globals' = globals ∧ console' = console
      | .undefined => True
      | .exhausted => False) :
    Carries environment fuel site [instruction] stack first fun value => .normal (leaves value) := by
  refine of_perform ?_
  rintro before next current ⟨⟨globals, locals⟩, console⟩
  have hone := hexecute locals globals next current console
  cases houtcome : first.run ⟨⟨globals, locals⟩, console⟩ with
  | done value after =>
      rw [houtcome] at hone
      obtain ⟨hproceed, rfl⟩ := hone
      simp only [Machine.perform, hproceed, Site.machine]
  | fault cause globals' console' =>
      rw [houtcome] at hone
      obtain ⟨hfault, rfl, rfl⟩ := hone
      simp only [Machine.perform, hfault, Machine.fail]
  | undefined => trivial
  | exhausted =>
      rw [houtcome] at hone
      exact hone.elim

/-- A value that is computed from the variables and pushed in place of some operands. -/
theorem of_push {instruction : Instruction} {operands below : Stack} {evaluation : Evaluation Value}
    (compute : Scopes → Except Fault Value)
    (hevaluation : ∀ state, evaluation.run state =
      (Evaluation.attempt (compute state.scopes) >>= Evaluation.keep environment.limits below.length).run state)
    (hexecute : ∀ locals globals next current,
      Frame.execute environment.limits globals ⟨site.code, locals, operands, next, current⟩ instruction = do
        let value ← compute ⟨globals, locals⟩
        let frame ← Frame.pushOn ⟨site.code, locals, operands, next, current⟩ environment.limits below value
        .ok (.proceed frame globals)) :
    Carries environment fuel site [instruction] operands evaluation fun value => .normal (value :: below) := by
  refine of_execute fun locals globals next current console => ?_
  rw [hevaluation, hexecute]
  cases hcompute : compute ⟨globals, locals⟩ with
  | error cause =>
      have hfault : (Evaluation.attempt (Except.error cause) >>=
          Evaluation.keep environment.limits below.length).run ⟨⟨globals, locals⟩, console⟩ =
            .fault cause globals console := rfl
      rw [hfault]
      exact ⟨rfl, rfl, rfl⟩
  | ok value =>
      have hkeep : (Evaluation.attempt (Except.ok value) >>=
          Evaluation.keep environment.limits below.length).run ⟨⟨globals, locals⟩, console⟩ =
            (Evaluation.keep environment.limits below.length value).run ⟨⟨globals, locals⟩, console⟩ := rfl
      rw [hkeep, Evaluation.keep]
      by_cases hroom : below.length < environment.limits.stack
      · rw [if_pos hroom]
        refine ⟨?_, rfl⟩
        change (Frame.pushOn _ _ below value >>= fun frame => .ok (Action.proceed frame globals)) = _
        rw [Frame.pushOn_eq, if_pos hroom]
        rfl
      · rw [if_neg hroom]
        refine ⟨?_, rfl, rfl⟩
        change (Frame.pushOn _ _ below value >>= fun frame => .ok (Action.proceed frame globals)) = _
        rw [Frame.pushOn_eq, if_neg hroom]
        rfl

end Carries
end StackCode
