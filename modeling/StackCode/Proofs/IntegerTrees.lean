import StackCode.Proofs.Correctness
import StackCode.Proofs.JumpAgreement
import StackCode.Proofs.Relocation
import StackCode.Proofs.WrappedIntegers

/-! Trees of integer operators. Every such tree is accepted, and the code for it computes its number: a run comes
past the code with one more value on the stack, or ends at a division by zero. -/

namespace StackCode

/-- The types of truth values, characters and integers. -/
abbrev IntegralType : Type := { ty : DataType // ty.isIntegral = true }

/-- An expression over integer literals in which every node has an integral type. -/
inductive IntExpr where
  | int (n : Int64) (ty : IntegralType)
  | uint (n : UInt64) (ty : IntegralType)
  | unary (op : UnaryOp) (operand : IntExpr) (ty : IntegralType)
  | binary (op : BinaryOp) (left right : IntExpr) (ty : IntegralType)

namespace IntExpr

def ty : IntExpr → IntegralType
  | .int _ ty | .uint _ ty | .unary _ _ ty | .binary _ _ _ ty => ty

def toExpr : IntExpr → Expr
  | .int n ty => .literal (.int n) (some ty.1)
  | .uint n ty => .literal (.uint n) (some ty.1)
  | .unary op operand ty => .unary op operand.toExpr (some ty.1)
  | .binary op left right ty => .binary op left.toExpr right.toExpr (some ty.1)

/-- The number that a tree stands for, operands from left to right. There is none if a divisor is zero. -/
def number? : IntExpr → Option Number
  | .int n _ => some ⟨true, n.toInt⟩
  | .uint n _ => some ⟨false, n.toNat⟩
  | .unary op operand _ => do
    let x ← operand.number?
    return .unary op x
  | .binary op left right _ => do
    let x ← left.number?
    let y ← right.number?
    Number.binary op x y

/-- How many values the code for a tree holds at a time. -/
def room : IntExpr → Nat
  | .int _ _ | .uint _ _ => 1
  | .unary _ operand _ => operand.room
  | .binary _ left right _ => max left.room (right.room + 1)

theorem room_pos (tree : IntExpr) : 0 < tree.room := by
  induction tree with
  | int n ty => exact Nat.one_pos
  | uint n ty => exact Nat.one_pos
  | unary op operand ty ih => exact ih
  | binary op left right ty ihLeft ihRight => exact ihLeft.trans_le (Nat.le_max_left _ _)

theorem ty_toExpr (tree : IntExpr) : tree.toExpr.ty = some tree.ty.1 := by
  cases tree <;> rfl

end IntExpr

/-- Integral operands of an operator meet among the integers. -/
theorem BinaryOp.familyOf?_of_isIntegral {left right : DataType} (hleft : left.isIntegral = true)
    (hright : right.isIntegral = true) : familyOf? left right = some .int := by
  have hnone : ∀ ty : DataType, ty.isIntegral = true → ty.isStr = false ∧ ty.isFloat = false := by
    rintro ⟨base, dims⟩ hty
    cases base <;> simp_all [DataType.isIntegral, DataType.isStr, DataType.isFloat, BaseType.isIntegral]
  simp [familyOf?, hnone left hleft, hnone right hright, hleft, hright]

namespace IntExpr

/-- The code for a tree. -/
def code (tree : IntExpr) : List Instruction := Code.expr tree.toExpr

theorem code_unary (op : UnaryOp) (operand : IntExpr) (ty : IntegralType) :
    (unary op operand ty).code = operand.code ++ [.operate (op.operationOn (some operand.ty.1))] := by
  rw [code, toExpr, Code.expr, ty_toExpr]
  rfl

theorem code_binary (op : BinaryOp) (left right : IntExpr) (ty : IntegralType) :
    (binary op left right ty).code = left.code ++ (right.code ++ [.operate (op.operationOn (some .int))]) := by
  rw [code, toExpr, Code.expr, ty_toExpr, ty_toExpr, Code.binary]
  cases op with
  | logic connective => simp [BinaryOp.familyOn, Code.widening, BinaryOp.operationOn, code]
  | _ =>
      simp [BinaryOp.familyOn, BinaryOp.familyOf?_of_isIntegral left.ty.2 right.ty.2, Code.widening_int, code]

end IntExpr

namespace Gen

variable {α β : Type}

/-- The part of a compilation never fails. -/
def Accepts (part : Gen α) : Prop := ∀ generator, ∃ value after, part.on generator = (.ok value, after)

theorem Accepts.bind {first : Gen α} {next : α → Gen β} (hfirst : Accepts first)
    (hnext : ∀ value, Accepts (next value)) : Accepts (first >>= next) := by
  intro generator
  obtain ⟨value, between, hvalue⟩ := hfirst generator
  obtain ⟨result, after, hresult⟩ := hnext value between
  refine ⟨result, after, ?_⟩
  rw [on_bind, hvalue]
  exact hresult

theorem accepts_pure (value : α) : Accepts (pure value : Gen α) := fun _ => ⟨_, _, rfl⟩

theorem accepts_emit (instruction : Instruction) : Accepts (emit instruction) := fun _ => ⟨_, _, rfl⟩

theorem accepts_emitAll (instructions : List Instruction) : Accepts (emitAll instructions) := fun _ => ⟨_, _, rfl⟩

theorem accepts_unaryOperation (op : UnaryOp) {operand : Expr} {ty : DataType} (hty : operand.ty = some ty)
    (hintegral : ty.isIntegral = true) : Accepts (unaryOperation op operand) := by
  have hfamily : ty.family? = some .int := if_pos hintegral
  rw [unaryOperation, Expr.requireType, hty]
  simp only [fromExcept, pure_bind, hfamily]
  cases op with
  | neg => exact accepts_pure _
  | not => exact accepts_pure _

theorem accepts_binaryWith (op : BinaryOp) {left right : Expr} {leftType rightType : DataType}
    {emitLeft emitRight : Gen Unit} (hleftType : left.ty = some leftType) (hrightType : right.ty = some rightType)
    (hleftIntegral : leftType.isIntegral = true) (hrightIntegral : rightType.isIntegral = true)
    (hleft : Accepts emitLeft) (hright : Accepts emitRight) :
    Accepts (binaryWith op left right emitLeft emitRight) := by
  have hwidening : ∀ ty : DataType, ty.isIntegral = true → op.widening .int ty = .ok [] :=
    fun _ hty => if_pos hty
  rw [binaryWith, Expr.requireType, Expr.requireType, hleftType, hrightType]
  simp only [fromExcept, pure_bind]
  cases op with
  | logic connective =>
      exact hleft.bind fun _ => hright.bind fun _ => (accepts_emit _).bind fun _ => accepts_pure _
  | _ =>
      simp only [BinaryOp.familyOf?_of_isIntegral hleftIntegral hrightIntegral, BinaryOp.operation?,
        hwidening leftType hleftIntegral, hwidening rightType hrightIntegral, pure_bind]
      exact hleft.bind fun _ => (accepts_emitAll _).bind fun _ => hright.bind fun _ =>
        (accepts_emitAll _).bind fun _ => (accepts_emit _).bind fun _ => accepts_pure _

theorem accepts_integers (tree : IntExpr) : Accepts (expr tree.toExpr) := by
  induction tree with
  | int n ty => exact accepts_emitAll _
  | uint n ty => exact accepts_emitAll _
  | unary op operand ty ih =>
      rw [IntExpr.toExpr, expr]
      exact (accepts_unaryOperation op operand.ty_toExpr operand.ty.2).bind fun _ =>
        ih.bind fun _ => accepts_emit _
  | binary op left right ty ihLeft ihRight =>
      rw [IntExpr.toExpr, expr]
      exact (accepts_binaryWith op left.ty_toExpr right.ty_toExpr left.ty.2 right.ty.2 ihLeft ihRight).bind
        fun _ => accepts_pure ()

end Gen

namespace IntExpr

/-- The statement that returns the value of a tree. -/
def returned (tree : IntExpr) : List Stmt := [.ret (some tree.toExpr)]

theorem code_returned (tree : IntExpr) : Code.stmts tree.returned = tree.code ++ [.plain .ret] := by
  simp [returned, Code.stmts, Code.stmt, code]

theorem accepts_returned (tree : IntExpr) : Gen.Accepts (Gen.stmts tree.returned) := by
  rw [returned, Gen.stmts, Gen.stmt]
  exact ((Gen.accepts_integers tree).bind fun _ => Gen.accepts_emit _).bind fun _ => Gen.accepts_pure ()

theorem exists_program (tree : IntExpr) :
    ∃ program, compileProgram tree.returned = .ok program ∧
      program.main = .ofInstructions (tree.code ++ [.plain .ret]) := by
  obtain ⟨value, after, hon⟩ := tree.accepts_returned ⟨.empty, .empty⟩
  have hcompile : compileProgram tree.returned = .ok ⟨after.out.code, after.context.functions⟩ := by
    change (Gen.stmts tree.returned).run.run ⟨.empty, .empty⟩ = _ at hon
    rw [compileProgram, compile, hon]
    rfl
  refine ⟨_, hcompile, (compileProgram_of_ok hcompile).1.trans ?_⟩
  rw [code_returned]

end IntExpr

namespace Machine

variable {environment : Environment} {machine : Machine} {between target : Nat} {stack below : Stack}

/-- The machine elsewhere in its code, with other operands. -/
def moved (machine : Machine) (next current : Nat) (stack : Stack) : Machine :=
  { machine with frame := { machine.frame with next, current, stack } }

/-- The machine comes to the target with a value of the number on top of the stack; without a number the run ends at
a division by zero. No variable changes. -/
def Brings (environment : Environment) (machine : Machine) (target : Nat) (below : Stack) : Option Number → Prop
  | some x =>
    ∃ value current count, value.number? = some x ∧
      machine.run environment count = .running (machine.moved target current (value :: below))
  | none =>
    ∃ offset, machine.Ends environment ⟨.error (.fault offset .divisionByZero), machine.globals, machine.console⟩

/-- One number after another is brought as the one is computed from the other. -/
theorem Brings.bind {number : Option Number} {next : Number → Option Number}
    (hfirst : machine.Brings environment between stack number)
    (hnext : ∀ x value current, value.number? = some x →
      (machine.moved between current (value :: stack)).Brings environment target below (next x)) :
    machine.Brings environment target below (number >>= next) := by
  cases number with
  | none => exact hfirst
  | some x =>
      obtain ⟨value, current, count, hvalue, hrun⟩ := hfirst
      have hsecond := hnext x value current hvalue
      change machine.Brings environment target below (next x)
      cases hresult : next x with
      | none =>
          rw [hresult] at hsecond
          obtain ⟨offset, hends⟩ := hsecond
          exact ⟨offset, (ends_of_run hrun _).mpr hends⟩
      | some y =>
          rw [hresult] at hsecond
          obtain ⟨result, last, more, hresult, hmore⟩ := hsecond
          refine ⟨result, last, count + more, hresult, ?_⟩
          rw [run_add, hrun]
          exact hmore

/-- The instruction puts a value on what it leaves of the stack. -/
def Puts (environment : Environment) (machine : Machine) (instruction : Instruction) (below : Stack) (value : Value) :
    Prop :=
  (machine.frame.advance instruction).execute environment.limits machine.globals instruction = do
    let frame ← (machine.frame.advance instruction).pushOn environment.limits below value
    .ok (.proceed frame machine.globals)

theorem run_put {instruction : Instruction} {value : Value}
    (hdecode : machine.frame.code.decodeAt machine.frame.next = .ok instruction)
    (hputs : machine.Puts environment instruction below value) (hroom : below.length < environment.limits.stack) :
    machine.run environment 1 =
      .running (machine.moved (machine.frame.next + instruction.length) machine.frame.next (value :: below)) := by
  rw [run_one, step_of_decodeAt hdecode, perform, hputs, Frame.pushOn_eq, if_pos hroom]
  rfl

/-- An instruction that pushes the result of a computation. -/
theorem brings_of_push {instruction : Instruction} {result : Except Fault Value} {number : Option Number}
    (hcomputes : Computes result number)
    (hdecode : machine.frame.code.decodeAt machine.frame.next = .ok instruction)
    (hexecute : (machine.frame.advance instruction).execute environment.limits machine.globals instruction = do
      let value ← result
      let frame ← (machine.frame.advance instruction).pushOn environment.limits below value
      .ok (.proceed frame machine.globals))
    (hroom : below.length < environment.limits.stack) :
    machine.Brings environment (machine.frame.next + instruction.length) below number := by
  cases hcomputes with
  | zeroDivisor =>
      refine ⟨machine.frame.next, 1, ?_⟩
      rw [run_one, step_of_decodeAt hdecode, perform, hexecute]
      rfl
  | @number value x hvalue => exact ⟨value, machine.frame.next, 1, hvalue, run_put hdecode hexecute hroom⟩

theorem brings_operate_one {operation : Operation} (harity : operation.arity = 1) {x : Value}
    {number : Option Number} (hcomputes : Computes (operation.onOne x) number)
    (hdecode : machine.frame.code.decodeAt machine.frame.next = .ok (.operate operation))
    (hstack : machine.frame.stack = x :: below) (hroom : below.length < environment.limits.stack) :
    machine.Brings environment (machine.frame.next + (Instruction.operate operation).length) below number := by
  apply brings_of_push hcomputes hdecode _ hroom
  change (operation.apply machine.frame.stack >>= _) = _
  rw [hstack, Operation.apply_one harity]
  cases operation.onOne x <;> rfl

theorem brings_operate_two {operation : Operation} (harity : operation.arity = 2) {x y : Value}
    {number : Option Number} (hcomputes : Computes (operation.onTwo x y) number)
    (hdecode : machine.frame.code.decodeAt machine.frame.next = .ok (.operate operation))
    (hstack : machine.frame.stack = y :: x :: below) (hroom : below.length < environment.limits.stack) :
    machine.Brings environment (machine.frame.next + (Instruction.operate operation).length) below number := by
  apply brings_of_push hcomputes hdecode _ hroom
  change (operation.apply machine.frame.stack >>= _) = _
  rw [hstack, Operation.apply_two harity]
  cases operation.onTwo x y <;> rfl

/-- Wherever the code of a tree stands, it brings the number of the tree. -/
theorem brings_integers (tree : IntExpr)
    (hholds : machine.frame.code.Holds machine.frame.next tree.code)
    (hroom : machine.frame.stack.length + tree.room ≤ environment.limits.stack) :
    machine.Brings environment (machine.frame.next + codeSize tree.code) machine.frame.stack tree.number? := by
  induction tree generalizing machine with
  | int n ty =>
      apply brings_of_push (.number rfl) hholds.decodeAt rfl
      exact hroom
  | uint n ty =>
      apply brings_of_push (.number rfl) hholds.decodeAt rfl
      exact hroom
  | unary op operand ty ih =>
      rw [IntExpr.code_unary] at hholds ⊢
      rw [codeSize_concat, ← Nat.add_assoc]
      apply (ih hholds.left hroom).bind
      intro x value current hvalue
      apply brings_operate_one (op.arity_operationOn _)
        (Operation.computes_unary op operand.ty.2 hvalue) hholds.right.decodeAt rfl
      have hpos := operand.room_pos
      change machine.frame.stack.length + operand.room ≤ _ at hroom
      omega
  | binary op left right ty ihLeft ihRight =>
      rw [IntExpr.code_binary] at hholds ⊢
      have hpos := left.room_pos
      change machine.frame.stack.length + max left.room (right.room + 1) ≤ _ at hroom
      rw [codeSize_append, codeSize_concat, ← Nat.add_assoc, ← Nat.add_assoc]
      apply (ihLeft hholds.left (by omega)).bind
      intro x first current hfirst
      have hright : (machine.moved (machine.frame.next + codeSize left.code) current
          (first :: machine.frame.stack)).frame.stack.length + right.room ≤ environment.limits.stack := by
        change (machine.frame.stack.length + 1) + right.room ≤ _
        omega
      apply (ihRight hholds.right.left hright).bind
      intro y second last hsecond
      apply brings_operate_two (op.arity_operationOn _)
        (Operation.computes_binary op hfirst hsecond) hholds.right.right.decodeAt rfl
      omega

end Machine

namespace IntExpr

/-- The statement that returns the value of the tree is accepted, and the run of its program ends with the report. -/
def Ends (tree : IntExpr) (limits : Limits) (globals : Scope) (console : Console) (report : Report) : Prop :=
  ∃ program, compileProgram tree.returned = .ok program ∧
    (Machine.start program.main globals console).Ends ⟨program.functions, limits⟩ report

section Ends

variable {tree : IntExpr} {limits : Limits} (globals : Scope) (console : Console)

variable {globals console} in
theorem Ends.unique {report other : Report} (hends : tree.Ends limits globals console report)
    (hother : tree.Ends limits globals console other) : report = other := by
  obtain ⟨program, hcompile, hrun⟩ := hends
  obtain ⟨same, hsame, hotherRun⟩ := hother
  obtain rfl : program = same := Except.ok.inj (hcompile.symm.trans hsame)
  exact hrun.unique hotherRun

/-- A value on the stack when the code of the tree is done is what the run returns. -/
theorem exists_ends (hroom : tree.room ≤ limits.stack) :
    (∀ x, tree.number? = some x → ∃ value, value.number? = some x ∧
      tree.Ends limits globals console ⟨.ok (some value), globals, console⟩) ∧
      (tree.number? = none → ∃ offset,
        tree.Ends limits globals console ⟨.error (.fault offset .divisionByZero), globals, console⟩) := by
  obtain ⟨program, hcompile, hmain⟩ := tree.exists_program
  have hencodable := (Code.closed_stmts tree.returned).encodable
  rw [code_returned] at hencodable
  have hholds : program.main.Holds 0 (tree.code ++ [.plain .ret]) := by
    rw [hmain]
    exact Stream.holds_ofInstructions hencodable
  let machine := Machine.start program.main globals console
  have hbrings : machine.Brings ⟨program.functions, limits⟩ (0 + codeSize tree.code) [] tree.number? := by
    apply Machine.brings_integers tree hholds.left
    exact (Nat.zero_add tree.room).trans_le hroom
  constructor
  · intro x hx
    rw [hx] at hbrings
    obtain ⟨value, current, count, hvalue, hrun⟩ := hbrings
    refine ⟨value, hvalue, program, hcompile, (Machine.ends_of_run hrun _).mpr ⟨1, ?_⟩⟩
    have hret : (machine.moved (0 + codeSize tree.code) current [value]).step ⟨program.functions, limits⟩ = _ :=
      Machine.step_of_decodeAt hholds.right.decodeAt
    rw [Machine.run_one, hret]
    rfl
  · intro hnone
    rw [hnone] at hbrings
    obtain ⟨offset, hends⟩ := hbrings
    exact ⟨offset, program, hcompile, hends⟩

end Ends

/-- The tree of `(a / b) * b + a % b`. -/
def restored (a b : IntExpr) (quotient product remainder sum : IntegralType) : IntExpr :=
  .binary (.arith .add) (.binary (.arith .mul) (.binary (.arith .div) a b quotient) b product)
    (.binary (.arith .mod) a b remainder) sum

theorem number?_restored {a b : IntExpr} {x y : Number} (ha : a.number? = some x) (hb : b.number? = some y)
    (hdivisor : y.value ≠ 0) (quotient product remainder sum : IntegralType) :
    ∃ z, (restored a b quotient product remainder sum).number? = some z ∧ z.pattern = x.pattern := by
  let scaled := Number.wrapped (.quotient x y) y ((Number.quotient x y).value * y.value)
  refine ⟨.wrapped scaled (.remainder x y) (scaled.value + (Number.remainder x y).value), ?_, ?_⟩
  · simp [restored, number?, ha, hb, Number.binary, Number.arith, hdivisor, scaled]
  · calc
      _ = (scaled.value + (Number.remainder x y).value).bmod (2 ^ 64) := Number.pattern_wrapped _ _ _
      _ = (scaled.pattern + (Number.remainder x y).value).bmod (2 ^ 64) := Int.bmod_add_bmod.symm
      _ = ((Number.quotient x y).value * y.value + (Number.remainder x y).value).bmod (2 ^ 64) := by
        rw [Number.pattern_wrapped, Int.bmod_add_bmod]
      _ = x.pattern := Number.quotient_mul_add_remainder x y

/-- On a machine with room for its operands every tree of integers returns its number, unless a divisor is zero; then
and only then the run fails with a division by zero. In particular quotient and remainder make up the pattern of the
dividend again. -/
theorem compiled_integers (limits : Limits) (globals : Scope) (console : Console) :
    (∀ tree : IntExpr, tree.room ≤ limits.stack →
      (∀ x, tree.number? = some x → ∃ value, value.number? = some x ∧
        tree.Ends limits globals console ⟨.ok (some value), globals, console⟩) ∧
      ((∃ report offset, tree.Ends limits globals console report ∧
        report.result = .error (.fault offset .divisionByZero)) ↔ tree.number? = none)) ∧
    ∀ (a b : IntExpr) (x y : Number) (quotient product remainder sum : IntegralType),
      a.number? = some x → b.number? = some y → y.value ≠ 0 →
      (restored a b quotient product remainder sum).room ≤ limits.stack →
        ∃ value z, value.number? = some z ∧ z.pattern = x.pattern ∧
          (restored a b quotient product remainder sum).Ends limits globals console
            ⟨.ok (some value), globals, console⟩ := by
  constructor
  · intro tree hroom
    obtain ⟨hvalue, hfault⟩ := exists_ends globals console hroom
    refine ⟨hvalue, fun hfailed => ?_, fun hnone => ?_⟩
    · obtain ⟨report, offset, hends, hreport⟩ := hfailed
      by_contra hsome
      obtain ⟨x, hx⟩ := Option.ne_none_iff_exists'.mp hsome
      obtain ⟨value, -, hother⟩ := hvalue x hx
      rw [hends.unique hother] at hreport
      cases hreport
    · obtain ⟨offset, hends⟩ := hfault hnone
      exact ⟨_, offset, hends, rfl⟩
  · intro a b x y quotient product remainder sum ha hb hdivisor hroom
    obtain ⟨z, hz, hpattern⟩ := number?_restored ha hb hdivisor quotient product remainder sum
    obtain ⟨value, hvalue, hends⟩ := (exists_ends globals console hroom).1 z hz
    exact ⟨value, z, hvalue, hpattern, hends⟩

def least : IntExpr := .int Int64.minValue ⟨.int64, rfl⟩

def minusOne : IntExpr := .unary .neg (.uint 1 ⟨.uint64, rfl⟩) ⟨.int64, rfl⟩

/-- The least quotient stays below every unsigned number. -/
def belowLargest : IntExpr :=
  .binary (.compare .lt) (.binary (.arith .div) least minusOne ⟨.int64, rfl⟩)
    (.uint 18446744073709551615 ⟨.uint64, rfl⟩) ⟨.bool, rfl⟩

def overNothing : IntExpr :=
  .binary (.arith .mod) least (.binary (.arith .add) minusOne (.uint 1 ⟨.uint64, rfl⟩) ⟨.int64, rfl⟩) ⟨.int64, rfl⟩

theorem compiled_integers_extremes :
    (∃ value, value.number? = some ⟨true, 1⟩ ∧
      belowLargest.Ends ⟨3, 1, 0⟩ .empty ⟨[], #[], none⟩ ⟨.ok (some value), .empty, ⟨[], #[], none⟩⟩) ∧
    (∃ report offset, overNothing.Ends ⟨3, 1, 0⟩ .empty ⟨[], #[], none⟩ report ∧
      report.result = .error (.fault offset .divisionByZero)) ∧
    ∃ value z, value.number? = some z ∧ z.pattern = -2 ^ 63 ∧
      (restored least minusOne ⟨.int64, rfl⟩ ⟨.int64, rfl⟩ ⟨.int64, rfl⟩ ⟨.int64, rfl⟩).Ends ⟨3, 1, 0⟩ .empty
        ⟨[], #[], none⟩ ⟨.ok (some value), .empty, ⟨[], #[], none⟩⟩ := by
  obtain ⟨hvalues, hrestored⟩ := compiled_integers ⟨3, 1, 0⟩ .empty ⟨[], #[], none⟩
  refine ⟨(hvalues belowLargest (by decide)).1 _ (by decide), (hvalues overNothing (by decide)).2.mpr (by decide), ?_⟩
  have hpattern : (⟨true, -2 ^ 63⟩ : Number).pattern = -2 ^ 63 := by decide
  rw [← hpattern]
  exact hrestored least minusOne ⟨true, -2 ^ 63⟩ ⟨true, -1⟩ _ _ _ _ (by decide) (by decide) (by decide) (by decide)

end IntExpr

end StackCode
