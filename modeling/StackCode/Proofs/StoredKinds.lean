import StackCode.Proofs.IntegerTrees
import StackCode.Proofs.ResourceBounds

/-! What a variable of a scalar type is bound to. Declarations and assignments bring a value from the type of its
expression to that of the variable: among numbers floats and integers are told apart, but no operation changes the
signedness of an integer. A value that has the kind of its own type therefore gets the kind of the variable's type, unless
exactly one of the two types is unsigned and the other one is not that of floats. -/

namespace StackCode

namespace BaseType

/-- What a value of a type becomes in a place of another type. Integers become floats, and floats truth values or signed
integers; everything else stays as it is. -/
def cast (source target : BaseType) (value : Value) : Value :=
  if source.isIntegral && target == .float then
    match value.integer? with
    | some n => .float (.ofInt n)
    | none => value
  else if source == .float && target.isIntegral then
    match value with
    | .float x => if target == .bool then .ofBool (!x.isZero) else .int x.toInt64
    | _ => value
  else value

/-- One type is unsigned and the other is not, and the result is no float. -/
def Crosses (source target : BaseType) : Prop := target ≠ .float ∧ (source.kind = .uint ↔ target.kind ≠ .uint)

instance (source target : BaseType) : Decidable (source.Crosses target) := inferInstanceAs (Decidable (_ ∧ _))

end BaseType

theorem BaseType.kind_cast {source target : BaseType} {value : Value} (hkind : value.kind = source.kind)
    (hfamily : source = .str ↔ target = .str) :
    (source.cast target value).kind =
      if source.Crosses target then if target.kind = .uint then .int else .uint else target.kind := by
  cases source with
  | str =>
      obtain rfl := hfamily.mp rfl
      cases value <;> cases hkind
      rfl
  | _ =>
      cases value <;> cases hkind
      cases target with
      | str => cases hfamily.mpr rfl
      | _ => rfl

namespace DataType

variable {source target : BaseType} {value result : Value} {operation : Operation}

theorem conversion?_scalar (source target : BaseType) :
    (scalar source).conversion? (scalar target) =
      if source.isIntegral && target == .float then some .intToFloat
      else if source == .float && target.isIntegral then
        some (if target == .bool then .floatToBool else .floatToInt)
      else none := by
  cases source <;> cases target <;> rfl

theorem cast_of_conversion?_eq_none (hconversion : (scalar source).conversion? (scalar target) = none) (value : Value) :
    source.cast target value = value := by
  rw [conversion?_scalar] at hconversion
  unfold BaseType.cast
  split at hconversion
  · cases hconversion
  · split at hconversion
    · cases hconversion
    · rw [if_neg ‹_›, if_neg ‹_›]

/-- A conversion that has a result brings the value to the target. -/
theorem eq_cast_of_onOne (hconversion : (scalar source).conversion? (scalar target) = some operation)
    (hresult : operation.onOne value = .ok result) : result = source.cast target value := by
  rw [conversion?_scalar] at hconversion
  unfold BaseType.cast
  split at hconversion
  · cases hconversion
    rw [if_pos ‹_›]
    cases value <;> cases hresult <;> rfl
  · split at hconversion
    · rw [if_neg ‹_›, if_pos ‹_›]
      split at hconversion
      · cases hconversion
        cases value <;> cases hresult
        exact (if_pos ‹_›).symm
      · cases hconversion
        cases value <;> cases hresult
        exact (if_neg ‹_›).symm
    · cases hconversion

/-- A value of the kind of its type can be converted. -/
theorem exists_onOne (hconversion : (scalar source).conversion? (scalar target) = some operation)
    (hkind : value.kind = source.kind) : ∃ result, operation.onOne value = .ok result := by
  rw [conversion?_scalar] at hconversion
  cases source with
  | str => simp [BaseType.isIntegral] at hconversion
  | _ =>
      cases value <;> cases hkind
      cases target <;> cases hconversion <;> exact ⟨_, rfl⟩

end DataType

/-- The statement binds a variable of a type to the value of an expression: it declares the variable with an initial
value, or plainly assigns to it. -/
inductive Stmt.Binds : Stmt → SymbolId → DataType → Expr → Prop
  | declare (id : SymbolId) (ty : DataType) (sizes : List (Option Expr)) (tree : Expr) :
      Binds (.declare id ty sizes (some tree)) id ty tree
  | assign (id : SymbolId) (ty : DataType) (tree : Expr) : Binds (.assign id ty none tree) id ty tree

theorem Stmt.Binds.code {statement : Stmt} {id : SymbolId} {ty : DataType} {tree : Expr}
    (hbinds : statement.Binds id ty tree) (hscalar : ty.isArray = false) :
    Code.stmts [statement] = Code.expr tree ++ (Code.conversion tree.ty ty ++ [.store id]) := by
  cases hbinds with
  | declare id ty sizes tree =>
      simp [Code.stmts, Code.stmt, Code.initialValue, hscalar, Code.converted]
  | assign id ty tree =>
      simp [Code.stmts, Code.stmt, Code.assignedValue, Code.converted]

namespace Machine

variable {environment : Environment} {machine : Machine} {value : Value} {below : Stack}

/-- The machine with other variables. -/
def withScopes (machine : Machine) (scopes : Scopes) : Machine :=
  { machine with frame := { machine.frame with locals := scopes.locals }, globals := scopes.globals }

theorem run_store {id : SymbolId} (hdecode : machine.frame.code.decodeAt machine.frame.next = .ok (.store id))
    (hstack : machine.frame.stack = value :: below) :
    machine.run environment 1 =
      .running ((machine.moved (machine.frame.next + (Instruction.store id).length) machine.frame.next below).withScopes
        ((machine.frame.scopes machine.globals).store id value)) := by
  have hexecute : (machine.frame.advance (.store id)).execute environment.limits machine.globals (.store id) =
      (machine.frame.stack.pop >>= fun popped => .ok (.proceed
        { machine.frame.advance (.store id) with
          stack := popped.2
          locals := ((machine.frame.scopes machine.globals).store id popped.1).locals }
        ((machine.frame.scopes machine.globals).store id popped.1).globals)) := rfl
  rw [run_one, step_of_decodeAt hdecode, perform, hexecute, hstack]
  rfl

theorem puts_operate_one {operation : Operation} (harity : operation.arity = 1) {result : Value}
    (hstack : machine.frame.stack = value :: below) (hresult : operation.onOne value = .ok result) :
    machine.Puts environment (.operate operation) below result := by
  change (operation.apply machine.frame.stack >>= _) = _
  rw [hstack, Operation.apply_one harity, hresult]
  rfl

/-- A value of the kind of its type is brought to another type in the place that it has on the stack. -/
theorem run_conversion {source target : BaseType} {inner : Stream} {offset distance : Nat}
    (hlies : inner.LiesIn machine.frame.code distance)
    (hholds : inner.Holds offset (Code.conversion (some (.scalar source)) (.scalar target)))
    (hnext : machine.frame.next = offset + distance) (hstack : machine.frame.stack = value :: below)
    (hkind : value.kind = source.kind) (hroom : below.length < environment.limits.stack) :
    ∃ count current, machine.run environment count =
      .running (machine.moved
        (machine.frame.next + codeSize (Code.conversion (some (.scalar source)) (.scalar target))) current
        (source.cast target value :: below)) := by
  unfold Code.conversion at hholds ⊢
  rw [Option.bind_some] at hholds ⊢
  cases hconversion : (DataType.scalar source).conversion? (.scalar target) with
  | none =>
      refine ⟨0, machine.frame.current, ?_⟩
      rw [DataType.cast_of_conversion?_eq_none hconversion, ← hstack]
      rfl
  | some operation =>
      rw [hconversion] at hholds
      have hdecode : machine.frame.code.decodeAt machine.frame.next = .ok (.operate operation) := by
        rw [hnext]
        exact hlies.decodeAt offset _ hholds.decodeAt
      obtain ⟨result, hresult⟩ := DataType.exists_onOne hconversion hkind
      obtain rfl := DataType.eq_cast_of_onOne hconversion hresult
      have hputs : machine.Puts environment (.operate operation) below (source.cast target value) :=
        puts_operate_one (arity_of_conversion? hconversion) hstack hresult
      exact ⟨1, machine.frame.next, run_put hdecode hputs hroom⟩

end Machine

/-- Once the value is on the stack, the rest of the statement converts and stores it. -/
theorem Stmt.Binds.run {statement : Stmt} {id : SymbolId} {source target : BaseType} {tree : Expr} {environment : Environment}
    {offset : Nat} {machine : Machine} {value : Value} {below : Stack} (hbinds : statement.Binds id (.scalar target) tree)
    (htype : tree.ty = some (.scalar source))
    (hlies : (Stream.ofInstructions (Code.stmts [statement])).LiesIn machine.frame.code offset)
    (hnext : machine.frame.next = codeSize (Code.expr tree) + offset) (hstack : machine.frame.stack = value :: below)
    (hkind : value.kind = source.kind) (hroom : below.length < environment.limits.stack) :
    ∃ count current, machine.run environment count =
      .running ((machine.moved (codeSize (Code.stmts [statement]) + offset) current below).withScopes
        ((machine.frame.scopes machine.globals).store id (source.cast target value))) := by
  let conversion := Code.conversion (some (.scalar source)) (.scalar target)
  have hcode : Code.stmts [statement] = Code.expr tree ++ (conversion ++ [.store id]) := by
    rw [hbinds.code rfl, htype]
  have hholds : (Stream.ofInstructions (Code.stmts [statement])).Holds 0
      (Code.expr tree ++ (conversion ++ [.store id])) := by
    rw [← hcode]
    exact Stream.holds_ofInstructions (Code.closed_stmts [statement]).encodable
  obtain ⟨first, between, hfirst⟩ := Machine.run_conversion hlies hholds.right.left (by omega) hstack hkind hroom
  let converted := machine.moved (machine.frame.next + codeSize conversion) between (source.cast target value :: below)
  have hdecode : converted.frame.code.decodeAt converted.frame.next = .ok (.store id) := by
    have hthere := hlies.decodeAt _ _ hholds.right.right.decodeAt
    have hplace : converted.frame.next = 0 + codeSize (Code.expr tree) + codeSize conversion + offset := by
      change machine.frame.next + codeSize conversion = _
      omega
    rwa [hplace]
  refine ⟨first + 1, converted.frame.next, ?_⟩
  rw [Machine.run_add, hfirst]
  refine (Machine.run_store hdecode rfl).trans ?_
  have hend : converted.frame.next + (Instruction.store id).length = codeSize (Code.stmts [statement]) + offset := by
    change machine.frame.next + codeSize conversion + _ = _
    rw [hcode, codeSize_append, codeSize_concat]
    omega
  rw [hend]
  rfl

/-- Where the value of an expression has been computed for a variable of a scalar type, and has the kind of the
expression's type, the run goes on to the end of the statement and binds the variable to what the value becomes in its type.
The kind is that of the variable's type, unless one of the types is unsigned and the other is not, and no float results:
then an integer is stored with the signedness that it has, and a float as a signed integer. -/
theorem stored_kind {context after : Context} {statement : Stmt} {id : SymbolId} {source target : BaseType} {tree : Expr}
    {code main : Stream} {environment : Environment} {globals : Scope} {console : Console} {count offset : Nat}
    {machine : Machine} {value : Value} {below : Stack}
    (hbinds : statement.Binds id (.scalar target) tree) (hcompile : compile context [statement] = (.ok code, after))
    (htype : tree.ty = some (.scalar source)) (hfamily : source = .str ↔ target = .str)
    (hreached : (Machine.start main globals console).run environment count = .running machine)
    (hlies : code.LiesIn machine.frame.code offset)
    (hnext : machine.frame.next = codeSize (Code.expr tree) + offset) (hstack : machine.frame.stack = value :: below)
    (hkind : value.kind = source.kind) :
    (∃ more current, machine.run environment more =
      .running ((machine.moved (code.size + offset) current below).withScopes
        ((machine.frame.scopes machine.globals).store id (source.cast target value)))) ∧
    (¬ source.Crosses target → (source.cast target value).kind = target.kind) ∧
    (source.Crosses target → (source.cast target value).kind = if target.kind = .uint then .int else .uint) := by
  obtain ⟨rfl, -⟩ := compile_of_ok hcompile
  have hheight := ((Machine.bounded_of_run hreached).frames machine.frame List.mem_cons_self).height
  rw [hstack, List.length_cons] at hheight
  refine ⟨?_, fun hsame => ?_, fun hcrosses => ?_⟩
  · rw [Stream.size_ofInstructions]
    exact hbinds.run htype hlies hnext hstack hkind hheight
  · rw [BaseType.kind_cast hkind hfamily, if_neg hsame]
  · rw [BaseType.kind_cast hkind hfamily, if_pos hcrosses]

/-- Declares a truth value that is initialized by the float 0.5. -/
def truthOfHalf : Stmt := .declare 300 .bool [] (some (.literal (.float ⟨0x3FE0000000000000⟩) (some .float)))

theorem stored_kind_truthOfHalf :
    ∃ code machine, compile .empty [truthOfHalf] = (.ok code, .empty) ∧
      (Machine.start code .empty ⟨[], #[], none⟩).run ⟨.empty, ⟨1, 0, 0⟩⟩ 1 = .running machine ∧
      (∃ more current, machine.run ⟨.empty, ⟨1, 0, 0⟩⟩ more =
        .running ((machine.moved code.size current []).withScopes ((Scopes.mk .empty none).store 300 (.int 1)))) ∧
      (Value.int 1).kind = BaseType.bool.kind := by
  let code := Stream.ofInstructions (Code.stmts [truthOfHalf])
  let half : Value := .float ⟨0x3FE0000000000000⟩
  let machine : Machine := ⟨⟨code, none, [half], 5, 0⟩, [], .empty, ⟨[], #[], none⟩⟩
  have hcompile : compile .empty [truthOfHalf] = (.ok code, .empty) := by decide +kernel
  have hreached : (Machine.start code .empty ⟨[], #[], none⟩).run ⟨.empty, ⟨1, 0, 0⟩⟩ 1 = .running machine := by
    decide +kernel
  have hlies : code.LiesIn machine.frame.code 0 := ⟨fun _ _ hdecode => hdecode, Nat.le_refl _⟩
  have hnext : machine.frame.next =
      codeSize (Code.expr (.literal (.float ⟨0x3FE0000000000000⟩) (some .float))) + 0 := by decide +kernel
  have hcast : BaseType.float.cast .bool half = .int 1 := by decide +kernel
  obtain ⟨hruns, hkind, -⟩ := stored_kind (.declare 300 .bool [] _) hcompile rfl (by decide) hreached hlies hnext rfl rfl
  rw [hcast] at hruns hkind
  exact ⟨code, machine, hcompile, hreached, hruns, hkind (by decide)⟩

/-- Declares an unsigned integer that is initialized by a signed one. -/
def unsignedOfSigned : Stmt := .declare 300 .uint64 [] (some (.literal (.int 5) (some .int64)))

/-- A variable of an unsigned type holds a signed integer. -/
theorem unsigned_holds_signed :
    ∃ program, compileProgram [unsignedOfSigned] = .ok program ∧
      (Machine.start program.main .empty ⟨[], #[], none⟩).Ends ⟨program.functions, .default⟩
        ⟨.ok none, .ofList [(300, .int 5)], ⟨[], #[], none⟩⟩ ∧
      (Value.int 5).kind = DataType.int64.leafKind ∧ (Value.int 5).kind ≠ DataType.uint64.leafKind := by
  have hcompile : compileProgram [unsignedOfSigned] =
      .ok ⟨.ofInstructions (Code.stmts [unsignedOfSigned]), .empty⟩ := by decide +kernel
  have hends : (Machine.start (.ofInstructions (Code.stmts [unsignedOfSigned])) .empty ⟨[], #[], none⟩).Ends
      ⟨.empty, .default⟩ ⟨.ok none, .ofList [(300, .int 5)], ⟨[], #[], none⟩⟩ := ⟨3, by decide +kernel⟩
  exact ⟨_, hcompile, hends, by decide, by decide⟩

end StackCode
