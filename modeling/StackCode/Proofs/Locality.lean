import StackCode.Proofs.Transitions
import StackCode.Proofs.VerifiedRun

/-! What a step looks at. An instruction that is no jump does not look at where it stands, and a run of verified
streams executes only instructions that a scan of these streams lists. -/

namespace StackCode

/-- The frame at another place, perhaps of another stream. -/
def Frame.placed (code : Stream) (next current : Nat) (frame : Frame) : Frame := { frame with code, next, current }

/-- The action with another frame. -/
def Action.onFrame (change : Frame → Frame) : Action → Action
  | .proceed frame globals => .proceed (change frame) globals
  | .builtin function frame => .builtin function (change frame)
  | .call id frame => .call id (change frame)
  | .leave value => .leave value

/-- A change of the action passes over what comes before it. -/
theorem map_after {α : Type} (first : Except Fault α) {next other : α → Except Fault Action}
    {change : Action → Action} (hnext : ∀ value, other value = (next value).map change) :
    (first >>= other) = (first >>= next).map change := by
  cases first with
  | error fault => rfl
  | ok value => exact hnext value

namespace Frame

/-- Wherever a frame stands, an instruction that is no jump does the same. -/
theorem execute_placed {instruction : Instruction} (hjump : instruction.opcode.isJump = false) (limits : Limits)
    (globals : Scope) (frame : Frame) (code : Stream) (next current : Nat) :
    (frame.placed code next current).execute limits globals instruction =
      (frame.execute limits globals instruction).map (.onFrame (placed code next current)) := by
  have hpush : ∀ rest value,
      ((frame.placed code next current).pushOn limits rest value >>= fun frame =>
          Except.ok (Action.proceed frame globals)) =
        (frame.pushOn limits rest value >>= fun frame => Except.ok (Action.proceed frame globals)).map
          (Action.onFrame (placed code next current)) := by
    intro rest value
    unfold pushOn push
    cases Stack.push limits value rest <;> rfl
  obtain ⟨opcode, operand⟩ := instruction
  cases opcode with
  | pushInt | pushUInt | pushSingle | pushDouble => exact map_after _ (hpush frame.stack)
  | operate operation => exact map_after (operation.apply frame.stack) fun result => hpush result.2 result.1
  | load => exact map_after _ fun id => map_after _ (hpush frame.stack)
  | store => exact map_after _ fun id => map_after frame.stack.pop fun popped => rfl
  | loadElement =>
      refine map_after _ fun place => map_after _ fun path => ?_
      exact map_after _ fun base => map_after _ (hpush path.2)
  | storeElement =>
      refine map_after _ fun place => map_after frame.stack.pop fun popped => map_after _ fun path => ?_
      exact map_after _ fun base => map_after _ fun updated => rfl
  | allocString =>
      refine map_after _ fun count => map_after _ fun codes => ?_
      exact map_after _ fun chars => hpush codes.2 _
  | allocArray => exact map_after _ fun count => map_after _ fun items => hpush items.2 _
  | allocFilled =>
      refine map_after _ fun fill => map_after _ fun sizes => map_after _ fun shape => ?_
      exact map_after _ fun _ => hpush sizes.2 _
  | call =>
      refine map_after _ fun id => ?_
      split
      · split <;> rfl
      · rfl
  | ret => rfl
  | pop => exact map_after frame.stack.pop fun popped => rfl
  | jump | jumpBackward | jumpIfFalse => cases hjump

/-- An instruction that is no jump leaves the frame where it stands. -/
theorem next_of_execute {instruction : Instruction} (hjump : instruction.opcode.isJump = false) {limits : Limits}
    {globals after : Scope} {frame left : Frame}
    (hexecute : frame.execute limits globals instruction = .ok (.proceed left after)) : left.next = frame.next := by
  have hplaced := execute_placed hjump limits globals frame frame.code frame.next frame.current
  rw [show frame.placed frame.code frame.next frame.current = frame from rfl, hexecute] at hplaced
  have hleft : left = left.placed frame.code frame.next frame.current := by
    injection hplaced with haction
    injection haction
  rw [hleft]
  rfl

end Frame

/-- All instructions that a scan of the stream lists have the property. -/
def Stream.All (property : Instruction → Prop) (code : Stream) : Prop :=
  ∀ entry ∈ code.scan.instructions, property entry.2

/-- The frame stands on a boundary of a verified stream whose instructions have the property. -/
structure Frame.Executes (property : Instruction → Prop) (frame : Frame) : Prop where
  onBoundary : frame.OnBoundary
  all : frame.code.All property

theorem Frame.Executes.of_decodeAt {property : Instruction → Prop} {frame : Frame} {instruction : Instruction}
    (hframe : frame.Executes property) (hdecode : frame.code.decodeAt frame.next = .ok instruction) :
    property instruction :=
  hframe.all _ (Stream.mem_scan.mpr ⟨hframe.onBoundary.2, hdecode⟩)

/-- The streams of all functions are verified, and their instructions have the property. -/
def Environment.Executes (property : Instruction → Prop) (environment : Environment) : Prop :=
  ∀ id function, environment.functions.get? id = some function →
    function.code.checkJumps = .ok () ∧ function.code.All property

namespace Machine

def Executes (property : Instruction → Prop) (machine : Machine) : Prop :=
  ∀ frame ∈ machine.frame :: machine.callers, frame.Executes property

variable {property : Instruction → Prop} {environment : Environment} {machine next : Machine}

theorem start_executes {code : Stream} (hcheck : code.checkJumps = .ok ()) (hall : code.All property)
    (globals : Scope) (console : Console) : (start code globals console).Executes property := by
  intro frame hframe
  rw [List.mem_singleton.mp hframe]
  exact ⟨Frame.start_onBoundary hcheck none, hall⟩

theorem Transition.all (htransition : machine.Transition environment next)
    (hfunctions : environment.Executes property)
    (hmachine : ∀ frame ∈ machine.frame :: machine.callers, frame.code.All property) :
    ∀ frame ∈ next.frame :: next.callers, frame.code.All property := by
  obtain ⟨hframe, hcallers⟩ := List.forall_mem_cons.mp hmachine
  cases htransition with
  | goesOn hdecode hadvances =>
      refine List.forall_mem_cons.mpr ⟨?_, hcallers⟩
      rw [hadvances.code]
      exact hframe
  | enters _ _ hfunction _ _ _ =>
      exact List.forall_mem_cons.mpr ⟨(hfunctions _ _ hfunction).2, List.forall_mem_cons.mpr ⟨hframe, hcallers⟩⟩
  | leaves _ hrest _ =>
      rw [hrest] at hcallers
      obtain ⟨hcaller, hbelow⟩ := List.forall_mem_cons.mp hcallers
      exact List.forall_mem_cons.mpr ⟨hcaller, hbelow⟩

/-- A step that does not end the run keeps to the streams. -/
theorem Executes.step (hmachine : machine.Executes property) (hfunctions : environment.Executes property)
    (hstep : machine.step environment = .running next) : next.Executes property := by
  have hverified : environment.Verified := fun id function hfunction => (hfunctions id function hfunction).1
  have hboundaries := step_meets hverified machine fun frame hframe => (hmachine frame hframe).onBoundary
  rw [hstep] at hboundaries
  have hall := (transition_of_step hstep).all hfunctions fun frame hframe => (hmachine frame hframe).all
  exact fun frame hframe => ⟨hboundaries frame hframe, hall frame hframe⟩

end Machine
end StackCode
