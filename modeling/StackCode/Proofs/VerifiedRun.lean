import StackCode.Proofs.Ensures
import StackCode.Proofs.Framing
import StackCode.Proofs.Steps

/-! Runs of verified streams. If the main stream and the streams of all functions pass the jump check, then
every active frame of every state of a run stands on a boundary of its stream, and the run does not end with
a fault that blames a stream: a malformed instruction, a jump out of bounds or an operand of the wrong
shape. -/

namespace StackCode

/-- The faults that blame the stream and not what it computes. -/
def Fault.isStreamFault : Fault → Bool
  | .jumpOutOfBounds | .invalidOperand => true
  | _ => false

def RuntimeError.isStreamFault : RuntimeError → Bool
  | .fault _ cause => cause.isStreamFault
  | .malformed _ => true

/-- A computation that does not blame the stream. -/
abbrev Blameless {α : Type} : Except Fault α → Prop :=
  Ensures (fun cause => cause.isStreamFault = false) fun _ => True

namespace Stack

theorem pop_blameless (stack : Stack) : Blameless stack.pop := by
  cases stack <;> trivial

theorem popInteger_blameless (operation : Operation) (stack : Stack) :
    Blameless (stack.popInteger operation) := by
  refine (pop_blameless stack).bind ?_
  rintro ⟨value, rest⟩ -
  simp only
  split <;> trivial

theorem popFloat_blameless (operation : Operation) (stack : Stack) :
    Blameless (stack.popFloat operation) := by
  refine (pop_blameless stack).bind fun popped _ => ?_
  split <;> trivial

theorem popText_blameless (operation : Operation) (stack : Stack) :
    Blameless (stack.popText operation) := by
  refine (pop_blameless stack).bind fun popped _ => ?_
  split <;> trivial

theorem popMany_blameless (count : Nat) (stack : Stack) : Blameless (stack.popMany count) := by
  unfold popMany
  split <;> trivial

theorem popPath_blameless (count : Nat) (stack : Stack) : Blameless (stack.popPath count) := by
  unfold popPath
  split <;> trivial

theorem push_blameless (limits : Limits) (value : Value) (stack : Stack) :
    Blameless (stack.push limits value) := by
  unfold push
  split <;> trivial

end Stack

namespace Value

theorem position_blameless (index : Value) (length : Nat) : Blameless (index.position length) := by
  unfold position
  split
  · trivial
  · split <;> trivial

theorem toChar_blameless (code : Value) : Blameless code.toChar := by
  unfold toChar
  split
  · trivial
  · split <;> trivial

theorem toSize_blameless (value : Value) : Blameless value.toSize := by
  unfold toSize
  split
  · split <;> trivial
  · trivial
  · trivial

theorem read_blameless (base : Value) (path : List Value) : Blameless (base.read path) := by
  induction path generalizing base with
  | nil =>
      rw [read]
      trivial
  | cons index rest ih =>
      cases base with
      | array items =>
          rw [read]
          split
          · exact ih _
          · exact (position_blameless index _).of_error ‹_›
      | str text =>
          cases rest with
          | nil =>
              rw [read]
              split
              · trivial
              · exact (position_blameless index _).of_error ‹_›
          | cons => trivial
      | _ => trivial

theorem write_blameless (base : Value) (path : List Value) (value : Value) :
    Blameless (base.write path value) := by
  induction path generalizing base with
  | nil =>
      rw [write]
      trivial
  | cons index rest ih =>
      cases base with
      | array items =>
          rw [write]
          split
          · exact (position_blameless index _).of_error ‹_›
          · split
            · trivial
            · exact (ih _).of_error ‹_›
      | str text =>
          cases rest with
          | nil =>
              rw [write]
              split
              · exact (position_blameless index _).of_error ‹_›
              · split
                · trivial
                · exact (toChar_blameless value).of_error ‹_›
          | cons => trivial
      | _ => trivial

end Value

theorem checkShape_blameless (limit count : Nat) (shape : List Nat) :
    Blameless (checkShape limit count shape) := by
  induction shape generalizing count with
  | nil => trivial
  | cons size rest ih =>
      unfold checkShape
      split
      · exact ih (count * size)
      · trivial

theorem Arith.onValues_blameless (op : Arith) (left right : Value) : Blameless (op.onValues left right) := by
  cases left <;> cases right <;> trivial

theorem FloatArith.onFloats_blameless (op : FloatArith) (left right : Binary64) :
    Blameless (op.onFloats left right) := by
  cases op with
  | div =>
      rw [onFloats]
      split <;> trivial
  | _ => trivial

namespace Operation

theorem truthOf_blameless (operation : Operation) (value : Value) :
    Blameless (operation.truthOf value) := by
  unfold truthOf
  split <;> trivial

theorem apply_blameless (operation : Operation) (stack : Stack) : Blameless (operation.apply stack) := by
  cases operation with
  | negInt =>
      refine (Stack.pop_blameless stack).bind fun popped _ => ?_
      split <;> trivial
  | negFloat => exact (Stack.popFloat_blameless _ stack).bind fun _ _ => trivial
  | notInt => exact (Stack.popInteger_blameless _ stack).bind fun _ _ => trivial
  | notFloat => exact (Stack.popFloat_blameless _ stack).bind fun _ _ => trivial
  | intArith op =>
      unfold apply
      simp only
      split
      · trivial
      · refine (Stack.pop_blameless stack).bind fun right _ => ?_
        refine (Stack.pop_blameless right.2).bind fun left _ => ?_
        exact (op.onValues_blameless left.1 right.1).bind fun _ _ => trivial
  | floatArith op =>
      refine (Stack.popFloat_blameless _ stack).bind fun right _ => ?_
      refine (Stack.popFloat_blameless _ right.2).bind fun left _ => ?_
      exact (op.onFloats_blameless left.1 right.1).bind fun _ _ => trivial
  | concat =>
      refine (Stack.popText_blameless _ stack).bind fun right _ => ?_
      exact (Stack.popText_blameless _ right.2).bind fun _ _ => trivial
  | compare relation family =>
      cases family with
      | int =>
          refine (Stack.popInteger_blameless _ stack).bind fun right _ => ?_
          exact (Stack.popInteger_blameless _ right.2).bind fun _ _ => trivial
      | float =>
          refine (Stack.popFloat_blameless _ stack).bind fun right _ => ?_
          exact (Stack.popFloat_blameless _ right.2).bind fun _ _ => trivial
      | str =>
          refine (Stack.popText_blameless _ stack).bind fun right _ => ?_
          exact (Stack.popText_blameless _ right.2).bind fun _ _ => trivial
  | logic connective =>
      refine (Stack.pop_blameless stack).bind fun right _ => ?_
      refine (Stack.pop_blameless right.2).bind fun left _ => ?_
      refine (truthOf_blameless _ right.1).bind fun _ _ => ?_
      exact (truthOf_blameless _ left.1).bind fun _ _ => trivial
  | intToFloat => exact (Stack.popInteger_blameless _ stack).bind fun _ _ => trivial
  | floatToInt => exact (Stack.popFloat_blameless _ stack).bind fun _ _ => trivial
  | floatToBool => exact (Stack.popFloat_blameless _ stack).bind fun _ _ => trivial
  | index =>
      refine (Stack.pop_blameless stack).bind fun subscript _ => ?_
      refine (Stack.pop_blameless subscript.2).bind fun container _ => ?_
      exact (container.1.read_blameless [subscript.1]).bind fun _ _ => trivial

end Operation

theorem PrintForm.text_blameless (form : PrintForm) (value : Value) : Blameless (form.text value) := by
  cases form with
  | char => exact value.toChar_blameless.map fun _ _ => trivial
  | _ =>
      unfold text
      simp only
      split <;> trivial

namespace Conversion

theorem reading_blameless {α : Type} (conversion : Conversion) (text : String) (result : Option α) :
    Blameless (conversion.reading text result) := by
  cases result <;> trivial

theorem apply_blameless (conversion : Conversion) (value : Value) :
    Blameless (conversion.apply value) := by
  unfold apply
  simp only
  split
  all_goals first
    | trivial
    | exact (reading_blameless _ _ _).map fun _ _ => trivial
    | exact (Value.toChar_blameless _).map fun _ _ => trivial

end Conversion

theorem Builtin.perform_blameless (limits : Limits) (stack : Stack) (console : Console) (function : Builtin) :
    Blameless (function.perform limits stack console).1 := by
  cases function with
  | input =>
      unfold perform
      simp only
      split
      · exact Stack.push_blameless limits _ stack
      · trivial
  | print form =>
      cases stack with
      | nil => trivial
      | cons value rest =>
          unfold perform
          simp only
          split
          · rename_i fault htext
            exact (form.text_blameless value).of_error htext
          · split <;> trivial
  | convert conversion =>
      cases stack with
      | nil => trivial
      | cons value rest =>
          unfold perform
          simp only
          split
          · rename_i fault hresult
            exact (conversion.apply_blameless value).of_error hresult
          · exact Stack.push_blameless limits _ rest

namespace Frame

theorem joinChars_blameless (codes : List Value) : Blameless (joinChars codes) := by
  induction codes with
  | nil => trivial
  | cons code rest ih => exact code.toChar_blameless.bind fun _ _ => ih.bind fun _ _ => trivial

theorem toSizes_blameless (values : List Value) : Blameless (toSizes values) := by
  induction values with
  | nil => trivial
  | cons value rest ih => exact value.toSize_blameless.bind fun _ _ => ih.bind fun _ _ => trivial

theorem require_blameless (id : SymbolId) (found : Option Value) : Blameless (require id found) := by
  cases found <;> trivial

/-- The frame is within a stream that passes the jump check, at a boundary of it. -/
def OnBoundary (frame : Frame) : Prop :=
  frame.code.checkJumps = .ok () ∧ frame.code.Boundary frame.next

theorem start_onBoundary {code : Stream} (hcheck : code.checkJumps = .ok ()) (locals : Option Scope) :
    (start code locals).OnBoundary :=
  ⟨hcheck, code.boundary_zero⟩

theorem OnBoundary.advance {frame : Frame} {instruction : Instruction} (hframe : frame.OnBoundary)
    (hdecode : frame.code.decodeAt frame.next = .ok instruction) :
    (frame.advance instruction).OnBoundary :=
  ⟨hframe.1, Stream.Reaches.next hframe.2 hdecode⟩

theorem OnBoundary.push {frame : Frame} (hframe : frame.OnBoundary) (limits : Limits) (value : Value) :
    Ensures (fun cause => cause.isStreamFault = false) OnBoundary (frame.push limits value) :=
  (Stack.push_blameless limits value frame.stack).bind fun _ _ => hframe

theorem OnBoundary.pushOn {frame : Frame} (hframe : frame.OnBoundary) (limits : Limits) (rest : Stack)
    (value : Value) :
    Ensures (fun cause => cause.isStreamFault = false) OnBoundary (frame.pushOn limits rest value) :=
  @OnBoundary.push { frame with stack := rest } hframe limits value

/-- A forward jump of a verified stream is taken to its target. -/
theorem OnBoundary.jumpForward {frame : Frame} {instruction : Instruction} {distance : UInt64}
    (hframe : frame.OnBoundary) (hdecode : frame.code.decodeAt frame.next = .ok instruction)
    (hopcode : instruction.opcode = .jump ∨ instruction.opcode = .jumpIfFalse)
    (hword : instruction.operand = .word distance) (stack : Stack) :
    Ensures (fun cause => cause.isStreamFault = false) OnBoundary
      ({ frame.advance instruction with stack := stack }.jumpForward distance) := by
  obtain ⟨_, haligned⟩ := Stream.checkJumps_eq_ok_iff.mp hframe.1
  have hjump : instruction.opcode.isJump = true := by
    rcases hopcode with hopcode | hopcode <;> rw [hopcode] <;> rfl
  obtain ⟨target, htarget, hboundary⟩ := haligned frame.next instruction hframe.2 hdecode hjump
  have hnext : frame.next + instruction.length + distance.toNat = target := by
    rcases hopcode with hopcode | hopcode <;>
    · simp only [Instruction.jumpTarget?, Instruction.word?, hword, hopcode] at htarget
      split at htarget
      · exact Option.some.inj htarget
      · cases htarget
  have hle : frame.next + instruction.length + distance.toNat ≤ frame.code.size := by
    rw [hnext]
    exact hboundary.le_size
  rw [Frame.jumpForward_of_le hle]
  refine ⟨hframe.1, ?_⟩
  rw [← hnext] at hboundary
  exact hboundary

/-- A backward jump of a verified stream is taken to its target. -/
theorem OnBoundary.jumpBackward {frame : Frame} {instruction : Instruction} {distance : UInt64}
    (hframe : frame.OnBoundary) (hdecode : frame.code.decodeAt frame.next = .ok instruction)
    (hopcode : instruction.opcode = .jumpBackward) (hword : instruction.operand = .word distance) :
    Ensures (fun cause => cause.isStreamFault = false) OnBoundary
      ((frame.advance instruction).jumpBackward distance) := by
  obtain ⟨_, haligned⟩ := Stream.checkJumps_eq_ok_iff.mp hframe.1
  obtain ⟨target, htarget, hboundary⟩ :=
    haligned frame.next instruction hframe.2 hdecode (by rw [hopcode]; rfl)
  simp only [Instruction.jumpTarget?, Instruction.word?, hword, hopcode] at htarget
  split at htarget
  · rename_i hle
    rw [Frame.jumpBackward_of_le (show distance.toNat ≤ (frame.advance instruction).next from hle)]
    refine ⟨hframe.1, ?_⟩
    rw [← Option.some.inj htarget] at hboundary
    exact hboundary
  · cases htarget

end Frame

/-- Every frame that the action goes on with stands on a boundary. -/
def Action.OnBoundary : Action → Prop
  | .proceed frame _ => frame.OnBoundary
  | .builtin _ frame => frame.OnBoundary
  | .call _ frame => frame.OnBoundary
  | .leave _ => True

namespace Instruction

theorem requireWord_blameless {instruction : Instruction} (hshape : instruction.WellShaped)
    (hlayout : instruction.opcode.layout = .word) :
    Ensures (fun cause => cause.isStreamFault = false) (fun word => instruction.operand = .word word)
      instruction.requireWord := by
  rw [WellShaped, hlayout] at hshape
  rw [requireWord]
  cases hoperand : instruction.operand <;> rw [hoperand] at hshape <;> first | rfl | cases hshape

theorem requireElement_blameless {instruction : Instruction} (hshape : instruction.WellShaped)
    (hlayout : instruction.opcode.layout = .twoWords) : Blameless instruction.requireElement := by
  rw [WellShaped, hlayout] at hshape
  rw [requireElement]
  cases hoperand : instruction.operand <;> rw [hoperand] at hshape <;> trivial

theorem requireFill_blameless {instruction : Instruction} (hshape : instruction.WellShaped)
    (hlayout : instruction.opcode.layout = .wordAndKind) : Blameless instruction.requireFill := by
  rw [WellShaped, hlayout] at hshape
  rw [requireFill]
  cases hoperand : instruction.operand <;> rw [hoperand] at hshape <;> trivial

theorem requireLiteral_blameless {opcode : Opcode} {operand : Operand}
    (hshape : WellShaped ⟨opcode, operand⟩)
    (hopcode : (∃ width, opcode = .pushInt width ∨ opcode = .pushUInt width) ∨
      opcode = .pushSingle ∨ opcode = .pushDouble) :
    Blameless (requireLiteral ⟨opcode, operand⟩) := by
  rcases hopcode with ⟨width, rfl | rfl⟩ | rfl | rfl <;> cases operand <;> trivial

end Instruction

namespace Frame

theorem execute_onBoundary (limits : Limits) (globals : Scope) {frame : Frame} {instruction : Instruction}
    (hframe : frame.OnBoundary) (hdecode : frame.code.decodeAt frame.next = .ok instruction) :
    Ensures (fun cause => cause.isStreamFault = false) Action.OnBoundary
      ((frame.advance instruction).execute limits globals instruction) := by
  have hnext := hframe.advance hdecode
  have hshape := (Instruction.of_decode hdecode).2
  obtain ⟨opcode, operand⟩ := instruction
  cases opcode with
  | pushInt | pushUInt | pushSingle | pushDouble =>
      refine (Instruction.requireLiteral_blameless hshape (by simp)).bind fun value _ => ?_
      exact (hnext.push limits value).bind fun _ h => h
  | operate operation =>
      refine (operation.apply_blameless _).bind fun result _ => ?_
      exact (hnext.pushOn limits result.2 result.1).bind fun _ h => h
  | load =>
      refine (Instruction.requireWord_blameless hshape rfl).bind fun id _ => ?_
      refine (require_blameless _ _).bind fun value _ => ?_
      exact (hnext.push limits value).bind fun _ h => h
  | store =>
      refine (Instruction.requireWord_blameless hshape rfl).bind fun id _ => ?_
      exact (Stack.pop_blameless _).bind fun _ _ => hnext
  | loadElement =>
      refine (Instruction.requireElement_blameless hshape rfl).bind fun place _ => ?_
      refine (Stack.popPath_blameless _ _).bind fun path _ => ?_
      refine (require_blameless _ _).bind fun base _ => ?_
      refine (base.read_blameless path.1).bind fun value _ => ?_
      exact (hnext.pushOn limits path.2 value).bind fun _ h => h
  | storeElement =>
      refine (Instruction.requireElement_blameless hshape rfl).bind fun place _ => ?_
      refine (Stack.pop_blameless _).bind fun value _ => ?_
      refine (Stack.popPath_blameless _ _).bind fun path _ => ?_
      refine (require_blameless _ _).bind fun base _ => ?_
      exact (base.write_blameless path.1 value.1).bind fun _ _ => hnext
  | allocString =>
      refine (Instruction.requireWord_blameless hshape rfl).bind fun count _ => ?_
      refine (Stack.popMany_blameless _ _).bind fun codes _ => ?_
      refine (joinChars_blameless codes.1).bind fun chars _ => ?_
      exact (hnext.pushOn limits codes.2 _).bind fun _ h => h
  | allocArray =>
      refine (Instruction.requireWord_blameless hshape rfl).bind fun count _ => ?_
      refine (Stack.popMany_blameless _ _).bind fun items _ => ?_
      exact (hnext.pushOn limits items.2 _).bind fun _ h => h
  | allocFilled =>
      refine (Instruction.requireFill_blameless hshape rfl).bind fun fill _ => ?_
      refine (Stack.popMany_blameless _ _).bind fun sizes _ => ?_
      refine (toSizes_blameless sizes.1).bind fun shape _ => ?_
      refine (checkShape_blameless limits.array 1 shape).bind fun _ _ => ?_
      exact (hnext.pushOn limits sizes.2 _).bind fun _ h => h
  | jump =>
      refine (Instruction.requireWord_blameless hshape rfl).bind fun distance hword => ?_
      exact (hframe.jumpForward hdecode (Or.inl rfl) hword frame.stack).bind fun _ h => h
  | jumpBackward =>
      refine (Instruction.requireWord_blameless hshape rfl).bind fun distance hword => ?_
      exact (hframe.jumpBackward hdecode rfl hword).bind fun _ h => h
  | jumpIfFalse =>
      refine (Instruction.requireWord_blameless hshape rfl).bind fun distance hword => ?_
      refine (Stack.pop_blameless _).bind fun cond _ => ?_
      simp only
      split
      · exact hnext
      · exact (hframe.jumpForward hdecode (Or.inr rfl) hword cond.2).bind fun _ h => h
      · trivial
  | call =>
      refine (Instruction.requireWord_blameless hshape rfl).bind fun id _ => ?_
      split
      · split
        · exact hnext
        · trivial
      · exact hnext
  | ret => trivial
  | pop => exact (Stack.pop_blameless _).bind fun _ _ => hnext

end Frame
/-- The run did not end with a fault that blames a stream. -/
def Report.Blameless (report : Report) : Prop :=
  ∀ error, report.result = .error error → error.isStreamFault = false

/-- The streams of all functions pass the jump check. -/
def Environment.Verified (environment : Environment) : Prop :=
  ∀ id function, environment.functions.get? id = some function → function.code.checkJumps = .ok ()

namespace Machine

/-- All active frames stand on boundaries. -/
def OnBoundaries (machine : Machine) : Prop :=
  ∀ frame ∈ machine.frame :: machine.callers, frame.OnBoundary

theorem onBoundaries_iff {machine : Machine} :
    machine.OnBoundaries ↔
      machine.frame.OnBoundary ∧ ∀ frame ∈ machine.callers, frame.OnBoundary :=
  List.forall_mem_cons

theorem start_onBoundaries {code : Stream} (hcheck : code.checkJumps = .ok ()) (globals : Scope)
    (console : Console) : (start code globals console).OnBoundaries :=
  onBoundaries_iff.mpr ⟨Frame.start_onBoundary hcheck none, fun _ hmem => (by cases hmem)⟩

theorem fail_meets {machine : Machine} {console : Console} {error : RuntimeError}
    (herror : error.isStreamFault = false) :
    (machine.fail console error).Meets OnBoundaries Report.Blameless := by
  rintro other hother
  cases hother
  exact herror

theorem bindArguments_blameless (params : List SymbolId) (stack : Stack) (scope : Scope) :
    Blameless (bindArguments params stack scope) := by
  induction params generalizing stack scope with
  | nil => trivial
  | cons param rest ih => exact (Stack.pop_blameless stack).bind fun popped _ => ih popped.2 _

theorem enter_onBoundary {environment : Environment} (hverified : environment.Verified) (depth : Nat)
    (id : SymbolId) {caller : Frame} (hcaller : caller.OnBoundary) :
    Ensures (fun cause => cause.isStreamFault = false)
      (fun frames => frames.1.OnBoundary ∧ frames.2.OnBoundary)
      (enter environment depth id caller) := by
  unfold enter
  split
  · trivial
  · rename_i function hfunction
    split
    · trivial
    · refine (bindArguments_blameless _ caller.stack _).bind fun bound _ => ?_
      exact ⟨Frame.start_onBoundary (hverified id function hfunction) _, hcaller⟩

theorem leave_meets {environment : Environment} {machine : Machine} (hmachine : machine.OnBoundaries)
    (value : Option Value) :
    (machine.leave environment value).Meets OnBoundaries Report.Blameless := by
  obtain ⟨_, hcallers⟩ := onBoundaries_iff.mp hmachine
  unfold leave
  split
  · rintro error herror
    cases herror
  · rename_i caller rest heq
    rw [heq] at hcallers
    obtain ⟨hcaller, hrest⟩ := List.forall_mem_cons.mp hcallers
    split
    · exact onBoundaries_iff.mpr ⟨hcaller, hrest⟩
    · have hpush := hcaller.push environment.limits ‹Value›
      split
      · rename_i pushed hpushed
        exact onBoundaries_iff.mpr ⟨hpush.of_ok hpushed, hrest⟩
      · rename_i fault hfault
        exact fail_meets (hpush.of_error hfault)

theorem performBuiltin_meets {environment : Environment} {machine : Machine} {frame : Frame}
    (hframe : frame.OnBoundary) (hcallers : ∀ caller ∈ machine.callers, caller.OnBoundary)
    (function : Builtin) :
    (machine.performBuiltin environment frame function).Meets OnBoundaries Report.Blameless := by
  have hperform := function.perform_blameless environment.limits frame.stack machine.console
  unfold performBuiltin
  simp only
  split
  · exact onBoundaries_iff.mpr ⟨hframe, hcallers⟩
  · rename_i fault console hfault
    rw [hfault] at hperform
    rintro error herror
    cases herror
    exact hperform

theorem step_meets {environment : Environment} (hverified : environment.Verified) (machine : Machine)
    (hmachine : machine.OnBoundaries) :
    (machine.step environment).Meets OnBoundaries Report.Blameless := by
  obtain ⟨hframe, hcallers⟩ := onBoundaries_iff.mp hmachine
  by_cases hend : machine.frame.code.size ≤ machine.frame.next
  · rw [step_of_end hend]
    exact leave_meets hmachine none
  obtain ⟨hdecodes, _⟩ := Stream.checkJumps_eq_ok_iff.mp hframe.1
  obtain ⟨instruction, hdecode⟩ := hdecodes machine.frame.next hframe.2 (by omega)
  have hexecute := Frame.execute_onBoundary environment.limits machine.globals hframe hdecode
  rw [step, if_neg hend, hdecode]
  simp only [perform]
  split
  · rename_i fault hfault
    exact fail_meets (hexecute.of_error hfault)
  · rename_i frame globals hproceed
    exact onBoundaries_iff.mpr ⟨hexecute.of_ok hproceed, hcallers⟩
  · exact leave_meets hmachine _
  · rename_i function frame hbuiltin
    exact performBuiltin_meets (hexecute.of_ok hbuiltin) hcallers function
  · rename_i id frame hcall
    have henter := enter_onBoundary hverified machine.callers.length id
      (show frame.OnBoundary from hexecute.of_ok hcall)
    split
    · rename_i callee caller hframes
      obtain ⟨hcallee, hcaller⟩ := henter.of_ok hframes
      exact onBoundaries_iff.mpr ⟨hcallee, List.forall_mem_cons.mpr ⟨hcaller, hcallers⟩⟩
    · rename_i fault hfault
      exact fail_meets (henter.of_error hfault)

end Machine

/-- A run of verified streams stands on boundaries throughout and never ends by blaming a stream. -/
theorem verified_run (program : Program) (hmain : program.main.checkJumps = .ok ())
    (hfunctions : ∀ id function, program.functions.get? id = some function →
      function.code.checkJumps = .ok ())
    (limits : Limits) (globals : Scope) (console : Console) :
    (∀ count machine,
      (Machine.start program.main globals console).run ⟨program.functions, limits⟩ count = .running machine →
        ∀ frame ∈ machine.frame :: machine.callers,
          ∃ boundaries, frame.code.boundaries = .ok boundaries ∧ frame.next ∈ boundaries) ∧
    ∀ report, (Machine.start program.main globals console).Ends ⟨program.functions, limits⟩ report →
      (∀ error, report.result ≠ .error (.malformed error)) ∧
      ∀ offset, report.result ≠ .error (.fault offset .jumpOutOfBounds) ∧
        report.result ≠ .error (.fault offset .invalidOperand) := by
  have hverified : Environment.Verified ⟨program.functions, limits⟩ := hfunctions
  have hrun := fun count => Machine.run_meets (Machine.step_meets hverified) count
    (Machine.start_onBoundaries hmain globals console)
  refine ⟨?_, ?_⟩
  · intro count machine hrunning frame hframe
    have hmachine := hrun count
    rw [hrunning] at hmachine
    obtain ⟨hcheck, hboundary⟩ := hmachine frame hframe
    obtain ⟨hdecodes, _⟩ := Stream.checkJumps_eq_ok_iff.mp hcheck
    exact ⟨_, Stream.boundaries_eq_ok_iff.mpr ⟨hdecodes, rfl⟩,
      (Stream.mem_boundaries_iff hdecodes).mpr hboundary⟩
  · rintro report ⟨count, hfinished⟩
    have hreport := hrun count
    rw [hfinished] at hreport
    refine ⟨fun error herror => ?_, fun offset => ⟨fun herror => ?_, fun herror => ?_⟩⟩
    · cases hreport _ herror
    · cases hreport _ herror
    · cases hreport _ herror

/-- How many calls are active in a run that goes on. -/
def Status.activeCalls : Status → Nat
  | .running machine => machine.callers.length
  | .finished _ => 0

/-- A loop around a call: the condition's jump leads to the end, the loop's to the first byte. -/
def callLoop : Program where
  main := .ofInstructions
    [.pushInt 1, .withWord .jumpIfFalse 18, .call 64, .withWord .jumpBackward 29]
  functions := .ofList [(64, ⟨[], .ofInstructions [.plain .ret]⟩)]

theorem verified_run_callLoop :
    callLoop.main.checkJumps = .ok () ∧
    (∀ id function, callLoop.functions.get? id = some function → function.code.checkJumps = .ok ()) ∧
    ∃ machine,
      (Machine.start callLoop.main .empty ⟨[], #[], none⟩).run ⟨callLoop.functions, .default⟩ 8 =
        .running machine ∧
      machine.callers.length = 1 ∧
      ∀ frame ∈ machine.frame :: machine.callers,
        ∃ boundaries, frame.code.boundaries = .ok boundaries ∧ frame.next ∈ boundaries := by
  have hmain : callLoop.main.checkJumps = .ok () := by decide
  have hentries : ∀ entry ∈ callLoop.functions.entries, entry.2.code.checkJumps = .ok () := by decide
  have hfunctions : ∀ id function, callLoop.functions.get? id = some function →
      function.code.checkJumps = .ok () := fun id function hget => hentries _ (Table.mem_of_get? hget)
  have hcalls : ((Machine.start callLoop.main .empty ⟨[], #[], none⟩).run
      ⟨callLoop.functions, .default⟩ 8).activeCalls = 1 := by decide +kernel
  refine ⟨hmain, hfunctions, ?_⟩
  cases hrun : (Machine.start callLoop.main .empty ⟨[], #[], none⟩).run ⟨callLoop.functions, .default⟩ 8 with
  | running machine =>
      rw [hrun] at hcalls
      exact ⟨machine, rfl, hcalls,
        (verified_run callLoop hmain hfunctions .default .empty ⟨[], #[], none⟩).1 8 machine hrun⟩
  | finished report =>
      rw [hrun] at hcalls
      cases hcalls

end StackCode
