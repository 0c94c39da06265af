import StackCode.Proofs.Correctness
import StackCode.Proofs.Locality

/-! Programs without backward jumps end. Within a frame the offset only grows, and a call starts a new frame only as
long as the limit of active calls allows it. So a byte of a frame is charged for all that a call from it can cost,
which depends on how many calls may still be nested, and what the active frames have left to pay falls with every
step. -/

namespace StackCode

/-- The instruction does not jump backwards. -/
def Instruction.Forward (instruction : Instruction) : Prop := instruction.opcode ≠ .jumpBackward

/-- No instruction of the stream jumps backwards. -/
def Stream.LoopFree (code : Stream) : Prop := code.All Instruction.Forward

def Program.LoopFree (program : Program) : Prop :=
  program.main.LoopFree ∧ ∀ id function, program.functions.get? id = some function → function.code.LoopFree

namespace Frame

variable {limits : Limits} {globals after : Scope} {frame left : Frame} {instruction : Instruction}

theorem next_le_of_jumpForward {distance : UInt64} (hjump : frame.jumpForward distance = .ok left) :
    frame.next ≤ left.next := by
  simp only [jumpForward] at hjump
  split at hjump
  · cases hjump
    exact Nat.le_add_right _ _
  · cases hjump

/-- An instruction that does not jump backwards does not lead back. -/
theorem next_le_of_execute (hforward : instruction.Forward)
    (hexecute : frame.execute limits globals instruction = .ok (.proceed left after)) : frame.next ≤ left.next := by
  by_cases hjump : instruction.opcode.isJump = false
  · rw [next_of_execute hjump hexecute]
  have hproceed : ∀ next : Except Fault Frame,
      (next >>= fun frame => Except.ok (Action.proceed frame globals)) = .ok (.proceed left after) →
        next = .ok left := by
    rintro (fault | next) hnext
    · cases hnext
    · cases hnext
      rfl
  obtain ⟨opcode, operand⟩ := instruction
  cases operand with
  | word distance =>
      cases opcode with
      | jump => exact next_le_of_jumpForward (hproceed _ hexecute)
      | jumpBackward => exact absurd rfl hforward
      | jumpIfFalse =>
          rw [execute_jumpIfFalse] at hexecute
          split at hexecute
          · cases hexecute
          · split at hexecute
            · cases hexecute
              exact Nat.le_refl _
            · have hnext := next_le_of_jumpForward (hproceed _ hexecute)
              exact hnext
            · cases hexecute
      | _ => exact absurd rfl hjump
  | _ =>
      cases opcode with
      | jump | jumpBackward | jumpIfFalse => cases hexecute
      | _ => exact absurd rfl hjump

/-- A frame that goes on in a stream without backward jumps comes further on in it. -/
theorem next_lt_of_move {console written : Console}
    (hframe : frame.Executes Instruction.Forward)
    (hmove : frame.move limits globals console = .proceed left after written) :
    left.code = frame.code ∧ frame.next < left.next ∧ frame.next < frame.code.size := by
  have hkeeps := frame.move_keeps limits globals console
  rw [hmove] at hkeeps
  unfold move at hmove
  split at hmove
  · cases hmove
  · rename_i hend
    refine ⟨hkeeps.code, ?_, by omega⟩
    split at hmove
    · cases hmove
    · rename_i instruction hdecode
      have hlength := instruction.one_le_length
      have hadvance : (frame.advance instruction).next = frame.next + instruction.length := rfl
      have hadvances := (frame.advance instruction).execute_advances limits globals instruction
      unfold performed at hmove
      split at hmove
      · cases hmove
      · rename_i hexecute
        cases hmove
        have hle := next_le_of_execute (hframe.of_decodeAt hdecode) hexecute
        omega
      · cases hmove
      · cases hmove
      · rename_i function caller hexecute
        obtain ⟨-, rfl⟩ := hadvances.of_ok hexecute
        split at hmove
        · cases hmove
          change frame.next < frame.next + instruction.length
          omega
        · cases hmove

end Frame

/-- What a byte of a stream may cost if so many calls can still be nested, with functions of at most so many bytes: a
step without a call, or a step with a call and the return from it. -/
def byteCost (largest : Nat) : (calls : Nat) → Nat
  | 0 => 1
  | calls + 1 => largest * byteCost largest calls + 2

theorem byteCost_pos (largest calls : Nat) : 0 < byteCost largest calls := by
  cases calls with
  | zero => exact Nat.one_pos
  | succ calls => exact Nat.succ_pos _

/-- What frames may still cost, the innermost one first: the bytes that they have left, and the step that leaves
them. -/
def framesCost (largest calls : Nat) : List Frame → Nat
  | [] => 0
  | frame :: below =>
    (frame.code.size - frame.next) * byteCost largest (calls - below.length) + 1 + framesCost largest calls below

/-- The byte at which a call stands pays for the callee. -/
theorem framesCost_call {largest calls : Nat} {frame caller callee : Frame} {callers : List Frame}
    (hdepth : callers.length < calls) (hcode : caller.code = frame.code) (hnext : frame.next < caller.next)
    (hsize : caller.next ≤ frame.code.size) (hcallee : callee.code.size ≤ largest) :
    framesCost largest calls (callee :: caller :: callers) < framesCost largest calls (frame :: callers) := by
  obtain ⟨rest, hrest⟩ : ∃ rest, calls - callers.length = rest + 1 := ⟨calls - callers.length - 1, by omega⟩
  have hbelow : calls - (callers.length + 1) = rest := by omega
  have hcallee : (callee.code.size - callee.next) * byteCost largest rest ≤ largest * byteCost largest rest :=
    Nat.mul_le_mul_right _ (by omega)
  have hcaller : (caller.code.size - caller.next + 1) * byteCost largest (rest + 1) ≤
      (frame.code.size - frame.next) * byteCost largest (rest + 1) :=
    Nat.mul_le_mul_right _ (by rw [hcode]; omega)
  have hcost : byteCost largest (rest + 1) = largest * byteCost largest rest + 2 := rfl
  rw [Nat.succ_mul] at hcaller
  simp only [framesCost, List.length_cons, hrest, hbelow]
  omega

namespace Machine

variable {environment : Environment} {largest : Nat}

/-- Without backward jumps every step that does not end the run costs something. -/
theorem framesCost_step {machine next : Machine}
    (hmachine : machine.Executes Instruction.Forward)
    (hlargest : ∀ id function, environment.functions.get? id = some function → function.code.size ≤ largest)
    (hstep : machine.step environment = .running next) :
    framesCost largest environment.limits.calls (next.frame :: next.callers) <
      framesCost largest environment.limits.calls (machine.frame :: machine.callers) := by
  obtain ⟨frame, callers, globals, console⟩ := machine
  have hframe := hmachine frame List.mem_cons_self
  have hkeeps := frame.move_keeps environment.limits globals console
  rw [step_eq_move] at hstep
  simp only at hstep
  cases hmove : frame.move environment.limits globals console with
  | proceed left after written =>
      simp only [hmove] at hstep
      cases hstep
      obtain ⟨hcode, hnext, hsize⟩ := Frame.next_lt_of_move hframe hmove
      have hbytes : left.code.size - left.next < frame.code.size - frame.next := by
        rw [hcode]
        omega
      have hcost := Nat.mul_lt_mul_of_pos_right hbytes
        (byteCost_pos largest (environment.limits.calls - callers.length))
      simp only [framesCost]
      omega
  | call id caller =>
      rw [hmove] at hkeeps
      obtain ⟨hdecode, -, rfl⟩ := hkeeps
      simp only [hmove] at hstep
      split at hstep
      · rename_i callee below hbegin
        cases hstep
        obtain ⟨function, arguments, hfunction, -, -, rfl⟩ := beginCall_eq_ok hbegin
        have hlength := (Instruction.call id).one_le_length
        have hnext : frame.next < frame.next + (Instruction.call id).length := by omega
        exact framesCost_call (lt_calls_of_beginCall hbegin) rfl hnext (Stream.le_size_of_decodeAt hdecode)
          (hlargest id function hfunction)
      · cases hstep
  | leave value =>
      simp only [hmove] at hstep
      cases callers with
      | nil => cases hstep
      | cons caller rest =>
          simp only [Report.deliver] at hstep
          split at hstep
          · cases hstep
            simp only [framesCost]
            omega
          · cases hstep
  | fail error written =>
      simp only [hmove] at hstep
      cases hstep

/-- A run without backward jumps has ended after as many steps as its frames may cost. -/
theorem finished_of_framesCost_le
    (hfunctions : environment.Executes Instruction.Forward)
    (hlargest : ∀ id function, environment.functions.get? id = some function → function.code.size ≤ largest)
    {count : Nat} {machine : Machine}
    (hmachine : machine.Executes Instruction.Forward)
    (hcount : framesCost largest environment.limits.calls (machine.frame :: machine.callers) ≤ count) :
    ∃ report, machine.run environment count = .finished report := by
  induction count generalizing machine with
  | zero =>
      simp only [framesCost] at hcount
      omega
  | succ count ih =>
      rw [run_succ]
      cases hstep : machine.step environment with
      | finished report => exact ⟨report, rfl⟩
      | running next =>
          have hcost := framesCost_step hmachine hlargest hstep
          exact ih (hmachine.step hfunctions hstep) (by omega)

end Machine

/-- The bytes of all functions together. -/
def functionBytes (functions : FunctionTable) : Nat := (functions.entries.map fun entry => entry.2.code.size).sum

theorem size_le_functionBytes {functions : FunctionTable} {id : SymbolId} {function : Function}
    (hfunction : functions.get? id = some function) : function.code.size ≤ functionBytes functions :=
  List.le_sum_of_mem (List.mem_map.mpr ⟨(id, function), Table.mem_of_get? hfunction, rfl⟩)

/-- As many steps as a program without backward jumps can take, whatever it computes. -/
def Program.stepBound (program : Program) (limits : Limits) : Nat :=
  program.main.size * byteCost (functionBytes program.functions) limits.calls + 1

mutual

/-- There is no loop in the statement, at any depth. -/
def Stmt.loopFree : Stmt → Bool
  | .conditional list => Branches.loopFree list
  | .whileLoop _ _ | .forLoop _ _ _ => false
  | .function _ _ body => Stmt.allLoopFree body
  | .declare _ _ _ _ | .assign _ _ _ _ | .assignElement _ _ _ _ _ | .ret _ | .expr _ => true

def Stmt.allLoopFree : List Stmt → Bool
  | [] => true
  | first :: rest => Stmt.loopFree first && Stmt.allLoopFree rest

def Branches.loopFree : Branches → Bool
  | .otherwise body => Stmt.allLoopFree body
  | .arm _ body rest => Stmt.allLoopFree body && Branches.loopFree rest

end

/-- Neither the code nor that of a declared function jumps backwards. -/
structure Forward (code : List Instruction) (declared : List Declaration) : Prop where
  own : ∀ instruction ∈ code, instruction.Forward
  functions : ∀ declaration ∈ declared, ∀ instruction ∈ Code.stmts declaration.body, instruction.Forward

theorem Forward.append {first second : List Instruction} {declared further : List Declaration}
    (hfirst : Forward first declared) (hsecond : Forward second further) :
    Forward (first ++ second) (declared ++ further) where
  own := List.forall_mem_append.mpr ⟨hfirst.own, hsecond.own⟩
  functions := List.forall_mem_append.mpr ⟨hfirst.functions, hsecond.functions⟩

theorem Straight.forward {code : List Instruction} (hstraight : Straight code) : Forward code [] where
  own instruction hmem hopcode := by
    have hjump := (hstraight instruction hmem).isJump
    rw [hopcode] at hjump
    cases hjump
  functions := nofun

namespace Code

theorem forward_jumpOver {opcode : Opcode} (hopcode : opcode ≠ .jumpBackward) (code : List Instruction) :
    Forward [jumpOver opcode code] [] where
  own := by simpa [Instruction.Forward, jumpOver, Instruction.withWord] using hopcode
  functions := nofun

theorem forward_branch (cond : Expr) {body rest : List Instruction} {declared further : List Declaration}
    (hbody : Forward body declared) (hrest : Forward rest further) :
    Forward (branch (expr cond) body rest) (declared ++ further) := by
  have hcode : branch (expr cond) body rest =
      expr cond ++ ([jumpOver .jumpIfFalse (body ++ [jumpOver .jump rest])] ++
        (body ++ ([jumpOver .jump rest] ++ rest))) := by
    simp [branch]
  rw [hcode]
  refine (straight_expr cond).forward.append ((forward_jumpOver (by decide) _).append (hbody.append ?_))
  exact (forward_jumpOver (by decide) rest).append hrest

mutual

theorem forward_stmt (tree : Stmt) (hfree : tree.loopFree = true) : Forward (stmt tree) (Declaration.ofStmt tree) := by
  cases tree with
  | declare id ty declared init =>
      exact Straight.forward (.concat (straight_initialValue ty declared init) ⟨trivial, rfl⟩)
  | assign id ty op value => exact Straight.forward (.concat (straight_assignedValue ty op _ value) ⟨trivial, rfl⟩)
  | assignElement id ty indices op value =>
      exact Straight.forward (.concat (straight_append.mpr ⟨straight_exprs indices.reverse,
        straight_assignedValue ty op _ value⟩) ⟨trivial, rfl⟩)
  | conditional list => exact forward_branches list hfree
  | whileLoop cond body => cases hfree
  | forLoop init cond body => cases hfree
  | function id params body =>
      obtain ⟨hown, hfunctions⟩ := forward_stmts body hfree
      exact ⟨List.forall_mem_nil _, List.forall_mem_cons.mpr ⟨hown, hfunctions⟩⟩
  | ret value =>
      cases value with
      | none => exact Straight.forward (.concat straight_nil ⟨trivial, rfl⟩)
      | some value => exact Straight.forward (.concat (straight_expr value) ⟨trivial, rfl⟩)
  | expr value =>
      refine @Forward.append _ _ [] [] (straight_expr value).forward ?_
      split
      · exact Straight.forward (straight_cons.mpr ⟨⟨trivial, rfl⟩, straight_nil⟩)
      · exact straight_nil.forward

theorem forward_stmts (list : List Stmt) (hfree : Stmt.allLoopFree list = true) :
    Forward (stmts list) (Declaration.ofStmts list) := by
  cases list with
  | nil => exact straight_nil.forward
  | cons first rest =>
      obtain ⟨hfirst, hrest⟩ := Bool.and_eq_true_iff.mp hfree
      exact (forward_stmt first hfirst).append (forward_stmts rest hrest)

theorem forward_branches (list : Branches) (hfree : list.loopFree = true) :
    Forward (branches list) (Declaration.ofBranches list) := by
  cases list with
  | otherwise body => exact forward_stmts body hfree
  | arm cond body rest =>
      obtain ⟨hbody, hrest⟩ := Bool.and_eq_true_iff.mp hfree
      exact forward_branch cond (forward_stmts body hbody) (forward_branches rest hrest)

end

end Code

/-- The stream of code that is shorter than the bound of offsets and does not jump backwards. -/
theorem Stream.loopFree_ofInstructions {statements : List Stmt}
    (hforward : ∀ instruction ∈ Code.stmts statements, instruction.Forward)
    (hsize : (ofInstructions (Code.stmts statements)).size < Instruction.offsetBound) :
    (ofInstructions (Code.stmts statements)).checkJumps = .ok () ∧
      (ofInstructions (Code.stmts statements)).LoopFree := by
  have hclosed := Code.closed_stmts statements
  refine ⟨(wellFormed_ofInstructions hclosed hsize).1, ?_⟩
  rintro ⟨offset, instruction⟩ hentry
  obtain ⟨hboundary, hdecode⟩ := mem_scan.mp hentry
  obtain ⟨front, back, hcode, -⟩ := exists_split hclosed.encodable hboundary hdecode
  exact hforward instruction (by rw [hcode]; simp)

theorem compileProgram_loopFree {statements : List Stmt} {program : Program}
    (hfree : Stmt.allLoopFree statements = true) (hcompile : compileProgram statements = .ok program)
    (hmain : program.main.size < Instruction.offsetBound)
    (hfunctions : ∀ id function, program.functions.get? id = some function →
      function.code.size < Instruction.offsetBound) :
    program.main.checkJumps = .ok () ∧
      (∀ id function, program.functions.get? id = some function → function.code.checkJumps = .ok ()) ∧
      program.LoopFree := by
  obtain ⟨hcode, htable⟩ := compileProgram_of_ok hcompile
  obtain ⟨hown, hdeclared⟩ := Code.forward_stmts statements hfree
  rw [hcode] at hmain
  have hmainFree := Stream.loopFree_ofInstructions hown hmain
  have hfunctionFree : ∀ id function, program.functions.get? id = some function →
      function.code.checkJumps = .ok () ∧ function.code.LoopFree := by
    intro id function hfunction
    have hsize := hfunctions id function hfunction
    rw [htable] at hfunction
    obtain ⟨declaration, hfind, rfl⟩ := Option.map_eq_some_iff.mp hfunction
    rw [Declaration.function] at hsize ⊢
    exact Stream.loopFree_ofInstructions (hdeclared declaration (Declaration.find?_eq_some hfind).1) hsize
  rw [Program.LoopFree, hcode]
  exact ⟨hmainFree.1, fun id function hfunction => (hfunctionFree id function hfunction).1, hmainFree.2,
    fun id function hfunction => (hfunctionFree id function hfunction).2⟩

/-- Programs without loops end, however their functions call each other. A verified program without backward jumps has
ended after a number of steps that its streams and the limit of active calls determine, and statements without loops
are compiled to such programs unless a stream exceeds the offsets. -/
theorem loopFree_ends :
    (∀ (program : Program) (limits : Limits), program.main.checkJumps = .ok () →
      Environment.Verified ⟨program.functions, limits⟩ → program.LoopFree →
      ∀ globals console, ∃ report, (Machine.start program.main globals console).run ⟨program.functions, limits⟩
        (program.stepBound limits) = .finished report) ∧
    ∀ statements program, Stmt.allLoopFree statements = true → compileProgram statements = .ok program →
      program.main.size < Instruction.offsetBound →
      (∀ id function, program.functions.get? id = some function → function.code.size < Instruction.offsetBound) →
      program.main.checkJumps = .ok () ∧
        (∀ id function, program.functions.get? id = some function → function.code.checkJumps = .ok ()) ∧
        program.LoopFree := by
  constructor
  · rintro program limits hmain hfunctions ⟨hmainFree, hfunctionsFree⟩ globals console
    have hexecutes : Environment.Executes Instruction.Forward ⟨program.functions, limits⟩ :=
      fun id function hfunction => ⟨hfunctions id function hfunction, hfunctionsFree id function hfunction⟩
    refine Machine.finished_of_framesCost_le hexecutes (fun id function => size_le_functionBytes)
      (Machine.start_executes hmain hmainFree globals console) ?_
    simp [framesCost, Program.stepBound, Machine.start, Frame.start]
  · intro statements program hfree hcompile hmain hfunctions
    exact compileProgram_loopFree hfree hcompile hmain hfunctions

/-- Calls a function that calls itself twice unless its argument is small. -/
def fibonacci : List Stmt :=
  [.function 100 [101]
    [.conditional (.arm (.binary (.compare .lt) (.var 101 (some .int64)) (.literal (.int 2) (some .int64)) (some .bool))
      [.ret (some (.var 101 (some .int64)))]
      (.otherwise [.ret (some (.binary (.arith .add)
        (.call 100 [.binary (.arith .sub) (.var 101 (some .int64)) (.literal (.int 1) (some .int64)) (some .int64)]
          (some .int64))
        (.call 100 [.binary (.arith .sub) (.var 101 (some .int64)) (.literal (.int 2) (some .int64)) (some .int64)]
          (some .int64)) (some .int64)))]))],
   .ret (some (.call 100 [.literal (.int 4) (some .int64)] (some .int64)))]

theorem loopFree_ends_fibonacci :
    Stmt.allLoopFree fibonacci = true ∧ ∃ program, compileProgram fibonacci = .ok program ∧ program.LoopFree ∧
      (∀ limits globals console, ∃ report, (Machine.start program.main globals console).run
        ⟨program.functions, limits⟩ (program.stepBound limits) = .finished report) := by
  have hfree : Stmt.allLoopFree fibonacci = true := by decide +kernel
  have hcompile : compileProgram fibonacci =
      .ok ⟨.ofInstructions (Code.stmts fibonacci), (compile .empty fibonacci).2.functions⟩ := by decide +kernel
  have hsizes : ∀ entry ∈ (compile .empty fibonacci).2.functions.entries,
      entry.2.code.size < Instruction.offsetBound := by decide +kernel
  obtain ⟨hruns, hcompiled⟩ := loopFree_ends
  obtain ⟨hmain, hfunctions, hloopFree⟩ := hcompiled fibonacci _ hfree hcompile (by decide +kernel)
    fun id function hfunction => hsizes _ (Table.mem_of_get? hfunction)
  exact ⟨hfree, _, hcompile, hloopFree, fun limits => hruns _ limits hmain hfunctions hloopFree⟩

end StackCode
