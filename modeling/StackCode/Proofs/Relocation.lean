import StackCode.Proofs.CodecInverse
import StackCode.Proofs.Locality
import StackCode.Proofs.ResourceBounds

/-! Streams run one after another. A stream that lies in a longer one is executed there as it is by itself, only
that its offsets are moved; this holds as long as no jump leaves it. So if the run of a stream comes to its end with
nothing on the stack, then a verified stream appended to it runs as it would from the variables and the console that
the first one leaves. -/

namespace StackCode

/-- Bytes before and behind an instruction do not matter to its decoding. -/
theorem Instruction.decode_within {inner outer : Array UInt8} (front back : List UInt8)
    (houter : outer.toList = front ++ inner.toList ++ back) {offset : Nat} {instruction : Instruction}
    (hdecode : decode inner offset = .ok instruction) :
    decode outer (offset + front.length) = .ok instruction := by
  obtain ⟨hbyte, hoperand⟩ := reads_of_decode hdecode
  have hend : offset + instruction.length ≤ inner.size := (of_decode hdecode).1
  have hlength : instruction.length = 1 + instruction.opcode.layout.byteCount := rfl
  have hsize : outer.size = front.length + inner.size + back.length := by
    rw [← Array.length_toList, houter]
    simp [Nat.add_assoc]
  have hopcode : outer[offset + front.length]? = some instruction.opcode.byte := by
    rw [← hbyte, ← Array.getElem?_toList, ← Array.getElem?_toList, houter, List.append_assoc,
      List.getElem?_append_right (Nat.le_add_left _ _), Nat.add_sub_cancel, List.getElem?_append_left]
    rw [Array.length_toList]
    omega
  have hbytes : (outer.extract (offset + front.length + 1)
      (offset + front.length + 1 + instruction.opcode.layout.byteCount)).toList =
        (inner.extract (offset + 1) (offset + 1 + instruction.opcode.layout.byteCount)).toList := by
    rw [Array.toList_extract, Array.toList_extract, houter, List.extract_eq_take_drop, List.extract_eq_take_drop,
      Nat.add_sub_cancel_left, Nat.add_sub_cancel_left, List.append_assoc,
      show offset + front.length + 1 = front.length + (offset + 1) by omega, ← List.drop_drop, List.drop_left,
      List.drop_append_of_le_length (by rw [Array.length_toList]; omega), List.take_append_of_le_length]
    rw [List.length_drop, Array.length_toList]
    omega
  apply decode_of_reads
  · omega
  · exact hopcode
  · rw [hbytes, hoperand]

namespace Stream

/-- The instructions of a stream are found in another one, so many bytes further on. -/
structure LiesIn (inner outer : Stream) (distance : Nat) : Prop where
  decodeAt : ∀ offset instruction, inner.decodeAt offset = .ok instruction →
    outer.decodeAt (offset + distance) = .ok instruction
  size : inner.size + distance ≤ outer.size

theorem liesIn_append_left (first second : Stream) : first.LiesIn (first.append second) 0 where
  decodeAt _ _ hdecode := Instruction.decode_within [] second.bytes.toList (by simp [append]) hdecode
  size := by simp

theorem liesIn_append_right (first second : Stream) : second.LiesIn (first.append second) first.size where
  decodeAt offset instruction hdecode := by
    have hwithin : (first.append second).decodeAt (offset + first.bytes.toList.length) = .ok instruction :=
      Instruction.decode_within first.bytes.toList [] (by simp [append]) hdecode
    rwa [Array.length_toList] at hwithin
  size := by simp [Nat.add_comm]

end Stream

namespace Frame

/-- The frame with its stream lying in another one, so many bytes from its start. -/
def inside (outer : Stream) (distance : Nat) (frame : Frame) : Frame :=
  frame.placed outer (frame.next + distance) (frame.current + distance)

variable {outer : Stream} {distance : Nat} {frame : Frame}

theorem jumpForward_inside (hlies : frame.code.LiesIn outer distance) (jump : UInt64) :
    frame.jumpForward jump = .error .jumpOutOfBounds ∨
      (frame.inside outer distance).jumpForward jump = (frame.jumpForward jump).map (inside outer distance) := by
  by_cases htarget : frame.next + jump.toNat ≤ frame.code.size
  · have hsize := hlies.size
    have houter : (frame.inside outer distance).next + jump.toNat ≤ outer.size := by
      change frame.next + distance + jump.toNat ≤ outer.size
      omega
    right
    rw [jumpForward_of_le htarget, jumpForward_of_le houter]
    simp only [Except.map, inside, placed]
    rw [Nat.add_right_comm]
  · exact Or.inl (if_neg htarget)

theorem jumpBackward_inside (outer : Stream) (distance : Nat) (frame : Frame) (jump : UInt64) :
    frame.jumpBackward jump = .error .jumpOutOfBounds ∨
      (frame.inside outer distance).jumpBackward jump = (frame.jumpBackward jump).map (inside outer distance) := by
  by_cases htarget : jump.toNat ≤ frame.next
  · have houter : jump.toNat ≤ (frame.inside outer distance).next := by
      change jump.toNat ≤ frame.next + distance
      omega
    right
    rw [jumpBackward_of_le htarget, jumpBackward_of_le houter]
    simp only [Except.map, inside, placed]
    rw [Nat.sub_add_comm htarget]
  · exact Or.inl (if_neg htarget)

/-- What is done with a frame after a jump does not depend on where the frame stands. -/
theorem proceed_inside {next other : Except Fault Frame} (globals : Scope)
    (hnext : next = .error .jumpOutOfBounds ∨ other = next.map (inside outer distance)) :
    (next >>= fun frame => Except.ok (Action.proceed frame globals)) = .error .jumpOutOfBounds ∨
      (other >>= fun frame => Except.ok (Action.proceed frame globals)) =
        (next >>= fun frame => Except.ok (Action.proceed frame globals)).map (.onFrame (inside outer distance)) := by
  rcases hnext with rfl | rfl
  · exact Or.inl rfl
  · cases next <;> exact Or.inr rfl

theorem jumpIfFalse_inside (hlies : frame.code.LiesIn outer distance) (limits : Limits) (globals : Scope)
    (jump : UInt64) :
    frame.execute limits globals ⟨.jumpIfFalse, .word jump⟩ = .error .jumpOutOfBounds ∨
      (frame.inside outer distance).execute limits globals ⟨.jumpIfFalse, .word jump⟩ =
        (frame.execute limits globals ⟨.jumpIfFalse, .word jump⟩).map (.onFrame (inside outer distance)) := by
  have hstack : (frame.inside outer distance).stack = frame.stack := rfl
  rw [execute_jumpIfFalse, execute_jumpIfFalse, hstack]
  cases frame.stack with
  | nil => exact Or.inr rfl
  | cons cond rest =>
      simp only
      rcases cond.truth? with _ | _ | _
      · exact Or.inr rfl
      · exact proceed_inside globals (@jumpForward_inside outer distance { frame with stack := rest } hlies jump)
      · exact Or.inr rfl

/-- An instruction does the same in the longer stream, unless it is a jump that leaves the shorter one. -/
theorem execute_inside (hlies : frame.code.LiesIn outer distance) (limits : Limits) (globals : Scope)
    (instruction : Instruction) :
    frame.execute limits globals instruction = .error .jumpOutOfBounds ∨
      (frame.inside outer distance).execute limits globals instruction =
        (frame.execute limits globals instruction).map (.onFrame (inside outer distance)) := by
  by_cases hjump : instruction.opcode.isJump = false
  · right
    have hown : frame.execute limits globals instruction =
        (frame.execute limits globals instruction).map
          (.onFrame (placed frame.code frame.next frame.current)) :=
      execute_placed hjump limits globals frame frame.code frame.next frame.current
    rw [inside, execute_placed hjump]
    nth_rewrite 2 [hown]
    rcases frame.execute limits globals instruction with fault | action
    · rfl
    · cases action <;> rfl
  obtain ⟨opcode, operand⟩ := instruction
  cases operand with
  | word jump =>
      cases opcode with
      | jump => exact proceed_inside globals (jumpForward_inside hlies jump)
      | jumpBackward => exact proceed_inside globals (jumpBackward_inside outer distance frame jump)
      | jumpIfFalse => exact jumpIfFalse_inside hlies limits globals jump
      | _ => exact absurd rfl hjump
  | _ =>
      cases opcode with
      | jump | jumpBackward | jumpIfFalse => exact Or.inr rfl
      | _ => exact absurd rfl hjump

end Frame

/-- The move of a frame whose stream lies in another one. -/
def Move.inside (outer : Stream) (distance : Nat) : Move → Move
  | .proceed frame globals console => .proceed (frame.inside outer distance) globals console
  | .call id frame => .call id (frame.inside outer distance)
  | .leave value => .leave value
  | .fail (.fault offset cause) console => .fail (.fault (offset + distance) cause) console
  | .fail (.malformed error) console => .fail (.malformed error) console

/-- The frame is not active any more. -/
def Move.isLast : Move → Bool
  | .proceed .. | .call .. => false
  | .leave _ | .fail .. => true

/-- Every frame that the move goes on with stands on a boundary, and a failure does not blame the stream. -/
def Move.OnBoundary : Move → Prop
  | .proceed frame _ _ => frame.OnBoundary
  | .call _ frame => frame.OnBoundary
  | .leave _ => True
  | .fail error _ => error.isStreamFault = false

namespace Frame

variable {outer : Stream} {distance : Nat} {frame : Frame}

theorem advance_inside (outer : Stream) (distance : Nat) (frame : Frame) (instruction : Instruction) :
    (frame.inside outer distance).advance instruction = (frame.advance instruction).inside outer distance := by
  simp only [advance, inside, placed]
  rw [Nat.add_right_comm]

theorem performed_inside (hlies : frame.code.LiesIn outer distance) (limits : Limits) (globals : Scope)
    (console : Console) (instruction : Instruction) :
    frame.performed limits globals console instruction = .fail (.fault frame.current .jumpOutOfBounds) console ∨
      (frame.inside outer distance).performed limits globals console instruction =
        (frame.performed limits globals console instruction).inside outer distance := by
  unfold performed
  rcases frame.execute_inside hlies limits globals instruction with hfault | hsame
  · rw [hfault]
    exact Or.inl rfl
  right
  have hadvances := frame.execute_advances limits globals instruction
  rw [hsame]
  rcases hexecute : frame.execute limits globals instruction with
    fault | ⟨next, after⟩ | ⟨function, next⟩ | ⟨id, next⟩ | value
  · rfl
  · rfl
  · obtain ⟨-, rfl⟩ := hadvances.of_ok hexecute
    have hstack : (next.inside outer distance).stack = next.stack := rfl
    simp only [Except.map, Action.onFrame, hstack]
    rcases function.perform limits next.stack console with ⟨fault | stack, written⟩ <;> rfl
  · rfl
  · rfl

theorem move_inside (hlies : frame.code.LiesIn outer distance) {instruction : Instruction}
    (hdecode : frame.code.decodeAt frame.next = .ok instruction) (limits : Limits) (globals : Scope)
    (console : Console) :
    frame.move limits globals console = .fail (.fault frame.next .jumpOutOfBounds) console ∨
      (frame.inside outer distance).move limits globals console =
        (frame.move limits globals console).inside outer distance := by
  have hlt := Stream.lt_size_of_decodeAt hdecode
  have houter : (frame.inside outer distance).code.decodeAt (frame.inside outer distance).next = .ok instruction :=
    hlies.decodeAt frame.next instruction hdecode
  have houterLt := Stream.lt_size_of_decodeAt houter
  rw [move, move, if_neg (by omega), if_neg (by omega), hdecode, houter]
  simp only [advance_inside]
  exact (frame.advance instruction).performed_inside hlies limits globals console instruction

theorem OnBoundary.move (hframe : frame.OnBoundary) (limits : Limits) (globals : Scope) (console : Console) :
    (frame.move limits globals console).OnBoundary := by
  by_cases hend : frame.code.size ≤ frame.next
  · rw [Frame.move, if_pos hend]
    trivial
  obtain ⟨hdecodes, -⟩ := Stream.checkJumps_eq_ok_iff.mp hframe.1
  obtain ⟨instruction, hdecode⟩ := hdecodes frame.next hframe.2 (by omega)
  have hexecute := execute_onBoundary limits globals hframe hdecode
  rw [Frame.move, if_neg hend, hdecode]
  simp only [performed]
  split
  · rename_i fault hfault
    exact hexecute.of_error hfault
  · rename_i next after hproceed
    exact hexecute.of_ok hproceed
  · trivial
  · rename_i id next hcall
    exact hexecute.of_ok hcall
  · rename_i function next hbuiltin
    have hnext : next.OnBoundary := hexecute.of_ok hbuiltin
    have hperform := function.perform_blameless limits next.stack console
    split
    · exact hnext
    · rename_i fault written hfault
      rw [hfault] at hperform
      exact hperform

/-- A frame at the end of a stream, or at an instruction of it that does not leave it, moves the same in the longer
stream. -/
theorem move_inside_of_stays (hlies : frame.code.LiesIn outer distance) (limits : Limits) (globals : Scope)
    (console : Console)
    (hstays : (frame.move limits globals console).isLast = false ∨
      frame.OnBoundary ∧ outer.size = frame.code.size + distance) :
    (frame.inside outer distance).move limits globals console =
      (frame.move limits globals console).inside outer distance := by
  have hblameless : ∀ error, frame.move limits globals console = .fail error console →
      error.isStreamFault = false := by
    intro error hmove
    rw [hmove] at hstays
    obtain ⟨hframe, -⟩ := hstays.resolve_left (by simp [Move.isLast])
    have hfail := hframe.move limits globals console
    rwa [hmove] at hfail
  by_cases hend : frame.code.size ≤ frame.next
  · have hmove : frame.move limits globals console = .leave none := if_pos hend
    rw [hmove] at hstays ⊢
    obtain ⟨-, hsize⟩ := hstays.resolve_left (by simp [Move.isLast])
    have houter : outer.size ≤ frame.next + distance := by omega
    exact if_pos houter
  cases hdecode : frame.code.decodeAt frame.next with
  | error error =>
      have hmove : frame.move limits globals console = .fail (.malformed error) console := by
        rw [move, if_neg hend, hdecode]
      cases hblameless _ hmove
  | ok instruction =>
      refine (move_inside hlies hdecode limits globals console).resolve_left fun hmove => ?_
      cases hblameless _ hmove

/-- The main frame of a run of the stream. -/
structure RunsMain (main : Stream) (frame : Frame) : Prop where
  code : frame.code = main
  locals : frame.locals = none
  boundary : main.checkJumps = .ok () → main.Boundary frame.next

theorem RunsMain.onBoundary {main : Stream} (hruns : frame.RunsMain main) (hcheck : main.checkJumps = .ok ()) :
    frame.OnBoundary := by
  rw [OnBoundary, hruns.code]
  exact ⟨hcheck, hruns.boundary hcheck⟩

theorem start_runsMain (main : Stream) : (start main none).RunsMain main where
  code := rfl
  locals := rfl
  boundary _ := main.boundary_zero

theorem RunsMain.proceed {main : Stream} (hruns : frame.RunsMain main) {limits : Limits} {globals after : Scope}
    {console written : Console} {next : Frame}
    (hmove : frame.move limits globals console = .proceed next after written) : next.RunsMain main := by
  have hkeeps := frame.move_keeps limits globals console
  rw [hmove] at hkeeps
  refine ⟨hkeeps.code.trans hruns.code, ?_, fun hcheck => ?_⟩
  · refine Option.not_isSome_iff_eq_none.mp ?_
    rw [hkeeps.locals, hruns.locals]
    simp
  · have hnext := (hruns.onBoundary hcheck).move limits globals console
    rw [hmove] at hnext
    rw [← hkeeps.code.trans hruns.code]
    exact hnext.2

theorem RunsMain.call {main : Stream} (hruns : frame.RunsMain main) {limits : Limits} {globals : Scope}
    {console : Console} {id : SymbolId} {caller : Frame}
    (hmove : frame.move limits globals console = .call id caller) : caller.RunsMain main := by
  have hkeeps := frame.move_keeps limits globals console
  rw [hmove] at hkeeps
  obtain ⟨hdecode, -, rfl⟩ := hkeeps
  refine ⟨hruns.code, hruns.locals, fun hcheck => ?_⟩
  have hnext := (hruns.onBoundary hcheck).advance hdecode
  rw [← hruns.code]
  exact hnext.2

theorem RunsMain.withStack {main : Stream} (hruns : frame.RunsMain main) (stack : Stack) :
    { frame with stack }.RunsMain main :=
  ⟨hruns.code, hruns.locals, hruns.boundary⟩

end Frame

/-- Two reports that differ at most in the offset of a fault. -/
structure Report.Moved (distance : Nat) (report other : Report) : Prop where
  result : other.result = report.result ∨ ∃ offset cause,
    report.result = .error (.fault offset cause) ∧ other.result = .error (.fault (offset + distance) cause)
  globals : other.globals = report.globals
  console : other.console = report.console

theorem Report.Moved.refl (distance : Nat) (report : Report) : report.Moved distance report :=
  ⟨Or.inl rfl, rfl, rfl⟩

theorem Report.Moved.of_fault (distance offset : Nat) (cause : Fault) (globals : Scope) (console : Console) :
    Moved distance ⟨.error (.fault offset cause), globals, console⟩
      ⟨.error (.fault (offset + distance) cause), globals, console⟩ :=
  ⟨Or.inr ⟨offset, cause, rfl, rfl⟩, rfl, rfl⟩

namespace Machine

/-- Two machines that differ only in the main stream, where that of the one lies in that of the other. -/
inductive Relocated (inner outer : Stream) (distance : Nat) : Machine → Machine → Prop where
  | main {frame : Frame} {globals : Scope} {console : Console} (hruns : frame.RunsMain inner) :
      Relocated inner outer distance ⟨frame, [], globals, console⟩ ⟨frame.inside outer distance, [], globals, console⟩
  | called {frame caller : Frame} {waiting : List Frame} {globals : Scope} {console : Console}
      (hruns : caller.RunsMain inner) :
      Relocated inner outer distance ⟨frame, waiting ++ [caller], globals, console⟩
        ⟨frame, waiting ++ [caller.inside outer distance], globals, console⟩

variable {environment : Environment} {inner outer : Stream} {distance : Nat} {machine other : Machine}

/-- Either the run goes on, or it is a run of a verified stream that ends where the longer one ends. -/
def Stays (inner outer : Stream) (distance : Nat) (status : Status) : Prop :=
  (∃ next, status = .running next) ∨ inner.checkJumps = .ok () ∧ outer.size = inner.size + distance

theorem relocated_step_main {frame : Frame} (globals : Scope) (console : Console) (hlies : inner.LiesIn outer distance)
    (hruns : frame.RunsMain inner)
    (hstays : Stays inner outer distance (step environment ⟨frame, [], globals, console⟩)) :
    (step environment ⟨frame, [], globals, console⟩).Related (Relocated inner outer distance) (Report.Moved distance)
      (step environment ⟨frame.inside outer distance, [], globals, console⟩) := by
  obtain rfl := hruns.code
  -- no frame waits below the main one, so a step that goes on is no last move of it
  have hmove := frame.move_inside_of_stays hlies environment.limits globals console <| by
    refine hstays.imp ?_ fun hverified => ⟨hruns.onBoundary hverified.1, hverified.2⟩
    rintro ⟨next, hstep⟩
    rw [step_eq_move] at hstep
    simp only at hstep
    split at hstep
    · rename_i hmove
      rw [hmove]
      rfl
    · rename_i hmove
      rw [hmove]
      rfl
    · cases hstep
    · cases hstep
  rw [step_eq_move, step_eq_move]
  simp only [hmove]
  cases hown : frame.move environment.limits globals console with
  | proceed next after written => exact .running (.main (hruns.proceed hown))
  | call id caller =>
      have hstack : (caller.inside outer distance).stack = caller.stack := rfl
      simp only [Move.inside, hstack]
      cases beginCall environment ([] : List Frame).length id caller.stack with
      | error fault => exact .finished (.of_fault distance caller.current fault globals console)
      | ok begun => exact .running (@Relocated.called _ _ _ _ _ [] _ _ ((hruns.call hown).withStack begun.2))
  | leave value => exact .finished (.refl distance _)
  | fail error written =>
      cases error with
      | fault offset cause => exact .finished (.of_fault distance offset cause globals written)
      | malformed error => exact .finished (.refl distance _)

theorem relocated_step_called {caller : Frame} (frame : Frame) (waiting : List Frame) (globals : Scope)
    (console : Console) (hruns : caller.RunsMain inner) :
    (step environment ⟨frame, waiting ++ [caller], globals, console⟩).Related (Relocated inner outer distance)
      (Report.Moved distance)
      (step environment ⟨frame, waiting ++ [caller.inside outer distance], globals, console⟩) := by
  have hdepth : (waiting ++ [caller.inside outer distance]).length = (waiting ++ [caller]).length := by simp
  rw [step_eq_move, step_eq_move]
  simp only [hdepth]
  cases frame.move environment.limits globals console with
  | proceed next after written => exact .running (.called hruns)
  | call id active =>
      simp only
      cases beginCall environment (waiting ++ [caller]).length id active.stack with
      | error fault => exact .finished (.refl distance _)
      | ok begun =>
          exact .running (@Relocated.called _ _ _ _ _ ({ active with stack := begun.2 } :: waiting) _ _ hruns)
  | leave value =>
      cases waiting with
      | nil =>
          have hstack : (caller.inside outer distance).stack = caller.stack := rfl
          simp only [List.nil_append, Report.deliver, hstack]
          cases receive environment.limits value caller.stack with
          | error fault => exact .finished (.of_fault distance caller.current fault globals console)
          | ok stack => exact .running (.main (hruns.withStack stack))
      | cons next waiting =>
          simp only [List.cons_append, Report.deliver]
          cases receive environment.limits value next.stack with
          | error fault => exact .finished (.refl distance _)
          | ok stack => exact .running (.called hruns)
  | fail error written => exact .finished (.refl distance _)

theorem Relocated.step (hlies : inner.LiesIn outer distance) (hmachine : machine.Relocated inner outer distance other)
    (hstays : Stays inner outer distance (machine.step environment)) :
    (machine.step environment).Related (Relocated inner outer distance) (Report.Moved distance)
      (other.step environment) := by
  cases hmachine with
  | main hruns => exact relocated_step_main _ _ hlies hruns hstays
  | called hruns => exact relocated_step_called _ _ _ _ hruns

/-- The offset of the instruction executed last does not matter to what comes next. -/
theorem step_current (frame : Frame) (current : Nat) (callers : List Frame) (globals : Scope) (console : Console) :
    step environment ⟨{ frame with current }, callers, globals, console⟩ =
      step environment ⟨frame, callers, globals, console⟩ := by
  rw [step_eq_move, step_eq_move]
  rfl

theorem ends_current (frame : Frame) (current : Nat) (callers : List Frame) (globals : Scope) (console : Console)
    (report : Report) :
    Ends environment ⟨{ frame with current }, callers, globals, console⟩ report ↔
      Ends environment ⟨frame, callers, globals, console⟩ report := by
  refine exists_congr fun count => ?_
  cases count with
  | zero => exact ⟨nofun, nofun⟩
  | succ count => rw [run_succ, run_succ, step_current]

theorem ends_of_run {count : Nat} {first : Machine} (hrun : first.run environment count = .running machine)
    (report : Report) : first.Ends environment report ↔ machine.Ends environment report := by
  constructor
  · rintro ⟨total, htotal⟩
    have hlater := run_finished_of_le htotal (Nat.le_add_left total count)
    rw [run_add, hrun] at hlater
    exact ⟨total, hlater⟩
  · rintro ⟨more, hmore⟩
    refine ⟨count + more, ?_⟩
    rw [run_add, hrun]
    exact hmore

section Append

variable {first : Stream} {globals between : Scope} {console written : Console} {count : Nat} {frame : Frame}

/-- Where the run of a stream comes to its end with nothing on the stack, that of a longer stream comes to what
stands behind. -/
theorem run_append_of_end
    (hrun : (start first globals console).run environment count = .running ⟨frame, [], between, written⟩)
    (hend : first.size ≤ frame.next) (hstack : frame.stack = []) (second : Stream) :
    (start (first.append second) globals console).run environment count =
      .running ⟨{ (Frame.start second none).inside (first.append second) first.size with current := frame.current },
        [], between, written⟩ := by
  have hstart : (start first globals console).Relocated first (first.append second) 0
      (start (first.append second) globals console) :=
    .main (Frame.start_runsMain first)
  obtain ⟨last, hlast, hmachine⟩ := exists_related_of_running
    (fun _ _ next hmachine hstep => hmachine.step (Stream.liesIn_append_left first second) (Or.inl ⟨next, hstep⟩))
    hstart hrun
  have hoffset := ((bounded_of_run hrun).frames frame List.mem_cons_self).offset
  rw [hlast]
  generalize hcallers : ([] : List Frame) = callers at hmachine
  cases hmachine with
  | main hruns =>
      -- all of the frame is known now but the offset of its last instruction
      obtain ⟨code, locals, stack, next, current⟩ := frame
      obtain rfl : code = first := hruns.code
      obtain rfl : locals = none := hruns.locals
      obtain rfl : stack = [] := hstack
      obtain rfl : next = code.size := Nat.le_antisymm hoffset hend
      simp [Frame.inside, Frame.placed, Frame.start]
  | called => simp at hcallers

/-- To run streams appended is to run them one after another: if the first one comes to its end with nothing on the
stack, and the second one is verified, then both together end as the second one does from the variables and the
console that the first one leaves, only that a fault of the second stream is found further on. -/
theorem ends_append {second : Stream}
    (hrun : (start first globals console).run environment count = .running ⟨frame, [], between, written⟩)
    (hend : first.size ≤ frame.next) (hstack : frame.stack = []) (hcheck : second.checkJumps = .ok ()) :
    (∀ report, (start second between written).Ends environment report →
      ∃ moved, (start (first.append second) globals console).Ends environment moved ∧
        report.Moved first.size moved) ∧
    ∀ moved, (start (first.append second) globals console).Ends environment moved →
      ∃ report, (start second between written).Ends environment report ∧ report.Moved first.size moved := by
  have hsecond : (start second between written).Relocated second (first.append second) first.size
      ⟨(Frame.start second none).inside (first.append second) first.size, [], between, written⟩ :=
    .main (Frame.start_runsMain second)
  have hsize : (first.append second).size = second.size + first.size := by simp [Nat.add_comm]
  simp only [ends_of_run (run_append_of_end hrun hend hstack second), ends_current]
  refine ends_related fun more => run_related (fun _ _ hmachine => ?_) more hsecond
  exact hmachine.step (Stream.liesIn_append_right first second) (Or.inr ⟨hcheck, hsize⟩)

end Append

end Machine

/-- Binds a variable to the number 2. -/
def setsTwo : Stream := .ofInstructions [.pushInt 2, .store 70]

/-- Counts the variable down by calls, and then divides by it. -/
def countsDown : Stream :=
  .ofInstructions [.load 70, .withWord .jumpIfFalse 18, .call 64, .withWord .jumpBackward 36, .pushInt 1, .load 70,
    .operate (.intArith .div)]

def decrements : Environment where
  functions := .ofList [(64, ⟨[], .ofInstructions [.load 70, .pushInt 1, .operate (.intArith .sub), .store 70]⟩)]
  limits := .default

theorem ends_append_countsDown :
    (Machine.start setsTwo .empty ⟨[], #[], none⟩).run decrements 2 =
      .running ⟨⟨setsTwo, none, [], 11, 2⟩, [], .ofList [(70, .int 2)], ⟨[], #[], none⟩⟩ ∧
    countsDown.checkJumps = .ok () ∧
    (Machine.start countsDown (.ofList [(70, .int 2)]) ⟨[], #[], none⟩).Ends decrements
      ⟨.error (.fault 47 .divisionByZero), .ofList [(70, .int 0)], ⟨[], #[], none⟩⟩ ∧
    ∃ moved, (Machine.start (setsTwo.append countsDown) .empty ⟨[], #[], none⟩).Ends decrements moved ∧
      Report.Moved setsTwo.size ⟨.error (.fault 47 .divisionByZero), .ofList [(70, .int 0)], ⟨[], #[], none⟩⟩
        moved := by
  have hfirst : (Machine.start setsTwo .empty ⟨[], #[], none⟩).run decrements 2 =
      .running ⟨⟨setsTwo, none, [], 11, 2⟩, [], .ofList [(70, .int 2)], ⟨[], #[], none⟩⟩ := by decide +kernel
  have hcheck : countsDown.checkJumps = .ok () := by decide +kernel
  have hsecond : (Machine.start countsDown (.ofList [(70, .int 2)]) ⟨[], #[], none⟩).Ends decrements
      ⟨.error (.fault 47 .divisionByZero), .ofList [(70, .int 0)], ⟨[], #[], none⟩⟩ := ⟨23, by decide +kernel⟩
  obtain ⟨hends, -⟩ := Machine.ends_append hfirst (by decide +kernel) rfl hcheck
  exact ⟨hfirst, hcheck, hsecond, hends _ hsecond⟩

end StackCode
